import Mathlib
import SourceGauge.Proofs.Scala.Reprint
import SourceGauge.Proofs.Scala.TokenMap

/-! Token lists with the same line breaks in them. The code metrics see of the places only between
which tokens a line ends, and no matter which lines and columns these are. -/
namespace SourceGauge.Scala

/-- No token starts on an earlier line than a token before it ends. -/
def InOrder (ts : List Token) : Prop := ts.Pairwise fun t u => t.stop.line ≤ u.start.line

instance (ts : List Token) : Decidable (InOrder ts) :=
  inferInstanceAs (Decidable (ts.Pairwise fun t u => t.stop.line ≤ u.start.line))

/-- The tokens of two lists have the same kinds and texts, and a line ends between two tokens of the
one just when it does between these two of the other. -/
structure SameBreaks (ts us : List Token) : Prop where
  spelling : ts.map Token.spelling = us.map Token.spelling
  breaks : (ts.zip us).Pairwise fun x y =>
    x.1.stop.line < y.1.start.line ↔ x.2.stop.line < y.2.start.line

/-- The tokens with their numbers in the list for columns. -/
def numbered (ts : List Token) : List Token :=
  ts.mapIdx fun i t => { t with start := ⟨t.start.line, i⟩ }

/-- A numbered token at the place of the token in the list that has this number. -/
def placed (us : List Token) (t : Token) : Token :=
  let u := us.getD t.start.column t
  { t with start := u.start, stop := u.stop }

section Place
variable {ts us : List Token} {i : Nat}

theorem SameBreaks.refl (ts : List Token) : SameBreaks ts ts := by
  refine ⟨rfl, List.pairwise_iff_getElem.2 fun i j hi hj _ => ?_⟩
  simp

theorem SameBreaks.length_eq (h : SameBreaks ts us) : ts.length = us.length := by
  simpa using congrArg List.length h.spelling

theorem SameBreaks.kind_text_eq (h : SameBreaks ts us) (hi : i < ts.length) (hi' : i < us.length) :
    ts[i].kind = us[i].kind ∧ ts[i].text = us[i].text := by
  have hspelling : (ts.map Token.spelling)[i]? = (us.map Token.spelling)[i]? :=
    congrArg (·[i]?) h.spelling
  simpa [hi, hi', Token.spelling] using hspelling

theorem length_numbered : (numbered ts).length = ts.length := List.length_mapIdx

/-- The numbers lead back to the tokens of either list. -/
theorem SameBreaks.map_placed_numbered (h : SameBreaks ts us) :
    (numbered ts).map (placed us) = us := by
  refine List.ext_getElem (by simp [length_numbered, h.length_eq]) fun i hi hi' => ?_
  have hlt : i < ts.length := by simpa [length_numbered] using hi
  obtain ⟨hkind, htext⟩ := h.kind_text_eq hlt hi'
  simp only [List.getElem_map, numbered, List.getElem_mapIdx, placed, List.getD_eq_getElem _ _ hi',
    hkind, htext]

/-- To stand at the places of the other list makes no difference to what the code metrics see. -/
theorem SameBreaks.keepsOn_placed (h : SameBreaks ts us) (hts : InOrder ts) (hus : InOrder us) :
    Token.KeepsOn (placed us) (numbered ts) := by
  refine ⟨fun t _ => ⟨rfl, fun _ => rfl⟩, List.pairwise_iff_getElem.2 fun i j hi hj hij => ?_⟩
  rw [length_numbered] at hi hj
  have hi' := h.length_eq ▸ hi
  have hj' := h.length_eq ▸ hj
  have hfirst : ts[i].stop.line ≤ ts[j].start.line := List.pairwise_iff_getElem.1 hts i j hi hj hij
  have hsecond : us[i].stop.line ≤ us[j].start.line :=
    List.pairwise_iff_getElem.1 hus i j hi' hj' hij
  have hbreaks : ts[i].stop.line < ts[j].start.line ↔ us[i].stop.line < us[j].start.line := by
    have hzip :=
      List.pairwise_iff_getElem.1 h.breaks i j (by simp [hi, hi']) (by simp [hj, hj']) hij
    simpa only [List.getElem_zip] using hzip
  constructor <;>
    simp only [numbered, List.getElem_mapIdx, placed, List.getD_eq_getElem _ _ hi',
      List.getD_eq_getElem _ _ hj'] <;>
    omega

theorem SameBreaks.codeMetrics_numbered (h : SameBreaks ts us) (hts : InOrder ts)
    (hus : InOrder us) :
    CodeMetrics.ofTokens us = CodeMetrics.ofTokens (numbered ts) := by
  rw [← codeMetrics_map_on (h.keepsOn_placed hts hus), h.map_placed_numbered]

theorem SameBreaks.codeMetrics_eq (h : SameBreaks ts us) (hts : InOrder ts) (hus : InOrder us) :
    CodeMetrics.ofTokens ts = CodeMetrics.ofTokens us :=
  ((SameBreaks.refl ts).codeMetrics_numbered hts hts).trans (h.codeMetrics_numbered hts hus).symm

end Place

end SourceGauge.Scala
