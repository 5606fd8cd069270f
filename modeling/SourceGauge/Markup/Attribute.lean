import SourceGauge.Markup.Event
import SourceGauge.Markup.Reference

/-! Attributes of a start tag. Readers differ in what they make of an attribute that is broken
or comes twice, so the attributes are first listed with such faults among them. -/
namespace SourceGauge.Markup

structure Attribute where
  name : List Char
  raw : List Char
  deriving DecidableEq, Repr

/-- The part of a name after its first colon, or all of it. -/
def localName (name : List Char) : List Char :=
  match name.dropWhile (· ≠ ':') with
  | [] => name
  | _ :: rest => rest

/-- The part of a name before its first colon, if it has one. -/
def nameLabel? (name : List Char) : Option (List Char) :=
  if name.contains ':' then some (name.takeWhile (· ≠ ':')) else none

/-- The label that an attribute declares for a name space. The empty label is that of names
without a label. -/
def Attribute.declared? (a : Attribute) : Option (List Char) :=
  if a.name = "xmlns".toList then some []
  else if "xmlns:".toList.isPrefixOf a.name then some (a.name.drop 6)
  else none

/-- The field of an element that an attribute gives. Declarations of name spaces and names with
the reserved label are their own fields, and of other names the label does not count. -/
def Attribute.field (a : Attribute) : String :=
  if a.declared?.isSome || nameLabel? a.name = some "xml".toList then String.ofList a.name
  else String.ofList (localName a.name)

/-- The attributes in a text, with `none` for each fault. The name of an attribute reaches to
the first blank or equals sign after its first character, and its value stands in quotes. With
`unique` a name that has come before is a fault. After a fault comes what follows a lone name, or
what follows the next blank. -/
def attributesFrom (unique : Bool) (fuel : Nat) (seen : List (List Char)) (cs : List Char) :
    List (Option Attribute) :=
  match fuel, cs.dropWhile isSpace with
  | _, [] => []
  | 0, _ => []
  | fuel + 1, cs =>
    let name := cs.take 1 ++ (cs.drop 1).takeWhile fun c => c ≠ '=' && !isSpace c
    match (cs.drop name.length).dropWhile isSpace with
    | [] => [none]
    | '=' :: rest =>
      if unique && seen.contains name then
        none :: attributesFrom unique fuel seen (rest.dropWhile (!isSpace ·))
      else
        match rest.dropWhile isSpace with
        | [] => [none]
        | q :: body =>
          if q = '"' || q = '\'' then
            match splitAtMark [q] body with
            | none => [none]
            | some (value, rest) =>
              some ⟨name, value⟩ :: attributesFrom unique fuel (name :: seen) rest
          else none :: attributesFrom unique fuel (name :: seen) (body.dropWhile (!isSpace ·))
    | rest => none :: attributesFrom unique fuel seen rest

/-- The attributes of a tag, if none is at fault and no name comes twice. -/
def Tag.attributes? (t : Tag) : Option (List Attribute) :=
  (attributesFrom true t.attributes.length [] t.attributes).mapM id

/-- The attributes of a tag before the first broken one. A name may come twice. -/
def Tag.leadingAttributes (t : Tag) : List Attribute :=
  ((attributesFrom false t.attributes.length [] t.attributes).takeWhile Option.isSome).filterMap id

/-- The attributes of a tag that are not at fault. -/
def Tag.soundAttributes (t : Tag) : List Attribute :=
  (attributesFrom true t.attributes.length [] t.attributes).filterMap id

end SourceGauge.Markup
