import SourceGauge.Text.Blank
import SourceGauge.Text.Utf8

/-! The encodings of source files. -/
namespace SourceGauge.Text

inductive Encoding
  | utf8
  | latin1
  deriving DecidableEq, Repr

namespace Encoding

def name : Encoding → String
  | .utf8 => "UTF-8"
  | .latin1 => "ISO-8859-1"

/-- The encoding of a given name. Case, blank characters at the ends, and the choice between
hyphen and underscore do not matter. -/
def ofName? (name : String) : Option Encoding :=
  let key := (trim name.toList).map fun c => if c = '_' then '-' else c.toLower
  match String.ofList key with
  | "utf-8" | "utf8" => some .utf8
  | "iso-8859-1" | "iso8859-1" | "latin1" | "latin-1" => some .latin1
  | _ => none

def unsupportedMessage (name : String) : String := s!"unsupported encoding '{name}'"

/-- A byte order mark at the front of a text is dropped. -/
def dropMark : List Char → List Char
  | c :: rest => if c = '\ufeff' then rest else c :: rest
  | [] => []

/-- The text of a file, or the offset of the first byte that cannot be decoded. -/
def decode (e : Encoding) (bytes : List UInt8) : Except Nat (List Char) :=
  match e with
  | .utf8 => (Utf8.decode bytes).map dropMark
  | .latin1 => .ok (bytes.map fun b => Char.ofNat b.toNat)

end Encoding
end SourceGauge.Text
