/-! Powers of natural numbers. They are those of the core library in every module, also where
another library offers powers of a more general kind. -/

attribute [instance(2000)] instPowNat instNatPowNat
attribute [default_instance(20000)] instPowNat
