import Mathlib
import SourceGauge.Proofs.Scala.Extent
import SourceGauge.Proofs.Scala.TokenPlace

/-! Block comments. The bytes behind the mark that opens a comment are cut from the left into marks
and other bytes, and the comment ends with the mark that closes the last open one. -/
namespace SourceGauge.Scala
open Text.Utf8 (encode encode_cons encode_append)

namespace BlockComment

def openMark : List UInt8 := [0x2F, 0x2A]

def closeMark : List UInt8 := [0x2A, 0x2F]

/-- A mark, or a byte at which none begins. -/
inductive Piece
  | opening
  | closing
  | other (b : UInt8)
  deriving DecidableEq, Repr

namespace Piece

def bytes : Piece → List UInt8
  | opening => openMark
  | closing => closeMark
  | other b => [b]

/-- By how many the number of open comments grows. -/
def change : Piece → Int
  | opening => 1
  | closing => -1
  | other _ => 0

end Piece

/-- Cuts bytes from the left, so that no two marks share a byte. -/
def pieces : List UInt8 → List Piece
  | 0x2F :: 0x2A :: rest => .opening :: pieces rest
  | 0x2A :: 0x2F :: rest => .closing :: pieces rest
  | b :: rest => .other b :: pieces rest
  | [] => []

/-- The number of open comments behind some pieces, when `outer` are open in front of them. -/
def depth (outer : Int) (ps : List Piece) : Int := outer + (ps.map Piece.change).sum

/-- Up to `body` some comment is always open, and the mark behind it closes the last one. -/
structure ClosedBehind (outer : Int) (body : List Piece) : Prop where
  stays : ∀ front, front <+: body → 0 < depth outer front
  closes : depth outer (body ++ [.closing]) = 0

/-- Where the comment that is open in front of some bytes ends: with the first mark that leaves no
comment open, or else behind all bytes. -/
inductive Ends (outer : Int) (ahead : List UInt8) : List UInt8 → List UInt8 → Prop
  | closed {body others : List Piece} (hcut : pieces ahead = body ++ .closing :: others)
      (hbody : ClosedBehind outer body) :
      Ends outer ahead (body.flatMap Piece.bytes ++ closeMark) (others.flatMap Piece.bytes)
  | unclosed (hstays : ∀ front, front <+: pieces ahead → 0 < depth outer front) :
      Ends outer ahead ahead []

section Cut
variable {outer : Int} {ahead inside after rest : List UInt8} {piece : Piece}

@[simp] theorem depth_nil (outer : Int) : depth outer [] = outer := by simp [depth]

theorem depth_cons (outer : Int) (piece : Piece) (ps : List Piece) :
    depth outer (piece :: ps) = depth (outer + piece.change) ps := by
  simp only [depth, List.map_cons, List.sum_cons]
  omega

theorem depth_append (outer : Int) (ps qs : List Piece) :
    depth outer (ps ++ qs) = depth (depth outer ps) qs := by
  simp only [depth, List.map_append, List.sum_append]
  omega

/-- No byte is lost in the cut. -/
theorem flatMap_bytes_pieces (bs : List UInt8) : (pieces bs).flatMap Piece.bytes = bs := by
  induction bs using pieces.induct with
  | case1 rest ih => rw [pieces, List.flatMap_cons, ih]; rfl
  | case2 rest ih => rw [pieces, List.flatMap_cons, ih]; rfl
  | case3 b rest hopen hclose ih => rw [pieces.eq_3 _ _ hopen hclose, List.flatMap_cons, ih]; rfl
  | case4 => rfl

theorem Ends.append_eq (h : Ends outer ahead inside after) : ahead = inside ++ after := by
  cases h with
  | closed hcut =>
    rw [← flatMap_bytes_pieces ahead, hcut, List.flatMap_append, List.flatMap_cons,
      List.append_assoc]
    rfl
  | unclosed => rw [List.append_nil]

theorem ClosedBehind.cons {body : List Piece} (houter : 0 < outer)
    (h : ClosedBehind (outer + piece.change) body) : ClosedBehind outer (piece :: body) := by
  constructor
  case stays =>
    intro front hfront
    rcases List.prefix_cons_iff.1 hfront with rfl | ⟨front, rfl, hrest⟩
    · simpa using houter
    · rw [depth_cons]
      exact h.stays front hrest
  case closes =>
    rw [List.cons_append, depth_cons]
    exact h.closes

/-- While comments are open, the end does not depend on the pieces that were passed. -/
theorem Ends.cons (piece : Piece) (houter : 0 < outer)
    (hcut : pieces (piece.bytes ++ rest) = piece :: pieces rest)
    (h : Ends (outer + piece.change) rest inside after) :
    Ends outer (piece.bytes ++ rest) (piece.bytes ++ inside) after := by
  cases h with
  | @closed body others hrest hbody =>
    rw [← List.append_assoc, ← List.flatMap_cons]
    exact .closed (by rw [hcut, hrest, List.cons_append]) (hbody.cons houter)
  | unclosed hstays =>
    refine .unclosed fun front hfront => ?_
    rw [hcut] at hfront
    rcases List.prefix_cons_iff.1 hfront with rfl | ⟨front, rfl, hrest⟩
    · simpa using houter
    · rw [depth_cons]
      exact hstays front hrest

theorem ends_closing (rest : List UInt8) : Ends 1 (closeMark ++ rest) closeMark rest := by
  have hcut : pieces (closeMark ++ rest) = [] ++ .closing :: pieces rest := rfl
  have hbody : ClosedBehind 1 [] := by
    refine ⟨fun front hfront => ?_, rfl⟩
    rw [List.prefix_nil.1 hfront]
    decide
  have hends := Ends.closed hcut hbody
  rwa [flatMap_bytes_pieces] at hends

theorem ClosedBehind.not_begins {body : List Piece} {ps : List Piece}
    (h : ClosedBehind outer body) (hstays : ∀ front, front <+: ps → 0 < depth outer front) :
    ¬ body ++ [.closing] <+: ps := by
  intro hbegins
  have := hstays _ hbegins
  rw [h.closes] at this
  exact absurd this (by decide)

theorem ClosedBehind.eq_of_append_eq {body other xs ys : List Piece} (h : ClosedBehind outer body)
    (hother : ClosedBehind outer other)
    (heq : body ++ .closing :: xs = other ++ .closing :: ys) : body = other ∧ xs = ys := by
  rcases List.append_eq_append_iff.1 heq with ⟨more, rfl, hmore⟩ | ⟨more, rfl, hmore⟩
  · cases more with
    | nil => exact ⟨by simp, by simpa using hmore⟩
    | cons piece more =>
      obtain ⟨rfl, -⟩ := List.cons.inj hmore
      exact absurd (by simp) (h.not_begins hother.stays)
  · cases more with
    | nil => exact ⟨by simp, by simpa using hmore.symm⟩
    | cons piece more =>
      obtain ⟨rfl, -⟩ := List.cons.inj hmore
      exact absurd (by simp) (hother.not_begins h.stays)

theorem Ends.of_closed {body others : List Piece} (h : Ends outer ahead inside after)
    (hcut : pieces ahead = body ++ .closing :: others) (hbody : ClosedBehind outer body) :
    inside = body.flatMap Piece.bytes ++ closeMark ∧ after = others.flatMap Piece.bytes := by
  cases h with
  | @closed other others' hcut' hother =>
    obtain ⟨rfl, rfl⟩ := hbody.eq_of_append_eq hother (hcut.symm.trans hcut')
    exact ⟨rfl, rfl⟩
  | unclosed hstays =>
    rw [hcut] at hstays
    exact absurd (by simp) (hbody.not_begins hstays)

end Cut

section Scan
variable {s : Scanner}

theorem ofUInt8_inj {a b : UInt8} : Char.ofUInt8 a = Char.ofUInt8 b ↔ a = b := by
  refine ⟨fun h => UInt8.toNat_inj.1 ?_, fun h => h ▸ rfl⟩
  rw [← toNat_ofUInt8, ← toNat_ofUInt8, h]

theorem exists_rest_of_peek {c : Char} (h : s.peek 0 = some c) :
    ∃ b rest, s.rest = b :: rest ∧ c = Char.ofUInt8 b ∧ s.bump.rest = rest ∧
      s.peek 1 = rest.head?.map Char.ofUInt8 := by
  have hbump : s.bump.rest = s.rest.tail := by rw [Scanner.bump, h]
  obtain ⟨bs, k, p⟩ := s
  cases bs with
  | nil => cases h
  | cons b rest =>
    refine ⟨b, rest, rfl, (Option.some.inj h).symm, hbump, ?_⟩
    cases rest <;> rfl

/-- Two bytes that are looked at as the characters of a mark are the mark. -/
theorem bump_bump_of_peek {c d : Char} {x y : UInt8} (hc : s.peek 0 = some c)
    (hx : c = Char.ofUInt8 x) (hd : s.peek 1 = some d) (hy : d = Char.ofUInt8 y) :
    s.rest = [x, y] ++ s.bump.bump.rest := by
  obtain ⟨b, rest, hrest, rfl, hbump, hnext⟩ := exists_rest_of_peek hc
  obtain rfl := ofUInt8_inj.1 hx
  cases rest with
  | nil => simp [hnext] at hd
  | cons b' rest =>
    have hpeek : s.bump.peek 0 = some (Char.ofUInt8 b') := by simp [Scanner.peek, hbump]
    obtain ⟨b'', rest', hrest', hb', hbump', -⟩ := exists_rest_of_peek hpeek
    obtain rfl := ofUInt8_inj.1 hb'
    obtain ⟨-, rfl⟩ := List.cons.inj (hbump.symm.trans hrest')
    have hsecond : Char.ofUInt8 b' = Char.ofUInt8 y := by
      rw [← hy]
      simpa [hnext] using hd
    rw [hrest, hbump', ofUInt8_inj.1 hsecond]
    rfl

theorem pieces_of_peek {c : Char} (hc : s.peek 0 = some c)
    (hopen : ¬ (c = '/' ∧ s.peek 1 = some '*')) (hclose : ¬ (c = '*' ∧ s.peek 1 = some '/')) :
    ∃ b, s.rest = Piece.bytes (.other b) ++ s.bump.rest ∧
      pieces s.rest = .other b :: pieces s.bump.rest := by
  obtain ⟨b, rest, hrest, rfl, hbump, hnext⟩ := exists_rest_of_peek hc
  refine ⟨b, by rw [hrest, hbump]; rfl, ?_⟩
  rw [hrest, hbump, pieces.eq_3]
  · rintro more rfl rfl
    exact hopen ⟨rfl, hnext⟩
  · rintro more rfl rfl
    exact hclose ⟨rfl, hnext⟩

/-- The byte loop takes a comment up to its end. -/
theorem closeComments_ends {n : Nat} (hn : 0 < n) (s : Scanner) :
    ∃ inside, Ends n s.rest inside (Scanner.closeComments n s).rest := by
  fun_induction Scanner.closeComments n s with
  | case1 n s hend =>
    have hrest : s.rest = [] := by
      obtain ⟨bs, k, p⟩ := s
      cases bs with
      | nil => rfl
      | cons b bs => cases hend
    rw [hrest]
    refine ⟨[], .unclosed fun front hfront => ?_⟩
    rw [List.prefix_nil.1 hfront, depth_nil]
    exact Int.natCast_pos.2 hn
  | case2 n s c hc hmark ih =>
    obtain ⟨rfl, hnext⟩ : c = '/' ∧ s.peek 1 = some '*' := by simpa using hmark
    obtain ⟨inside, hends⟩ := ih (Nat.succ_pos n)
    rw [bump_bump_of_peek hc (x := 0x2F) rfl hnext (y := 0x2A) rfl]
    rw [Nat.cast_succ] at hends
    exact ⟨_, hends.cons .opening (Int.natCast_pos.2 hn) rfl⟩
  | case3 s c hc hopen hmark =>
    obtain ⟨rfl, hnext⟩ : c = '*' ∧ s.peek 1 = some '/' := by simpa using hmark
    rw [bump_bump_of_peek hc (x := 0x2A) rfl hnext (y := 0x2F) rfl]
    exact ⟨_, ends_closing _⟩
  | case4 n s c hc hopen hmark hne ih =>
    obtain ⟨rfl, hnext⟩ : c = '*' ∧ s.peek 1 = some '/' := by simpa using hmark
    obtain ⟨inside, hends⟩ := ih (by omega)
    rw [bump_bump_of_peek hc (x := 0x2A) rfl hnext (y := 0x2F) rfl]
    rw [Nat.cast_sub (by omega)] at hends
    exact ⟨_, hends.cons .closing (Int.natCast_pos.2 hn) rfl⟩
  | case5 n s c hc hopen hclose ih =>
    obtain ⟨b, hrest, hcut⟩ := pieces_of_peek hc (by simpa using hopen) (by simpa using hclose)
    obtain ⟨inside, hends⟩ := ih hn
    rw [hrest] at hcut ⊢
    rw [← Int.add_zero n] at hends
    exact ⟨_, hends.cons (.other b) (Int.natCast_pos.2 hn) hcut⟩

/-- How far a comment reaches behind its opening mark. -/
theorem blockLength_ends (cs : List Char) :
    Ends 1 (encode cs) (encode (cs.take (Lexeme.blockLength 0 cs)))
      (encode (cs.drop (Lexeme.blockLength 0 cs))) := by
  obtain ⟨inside, hends⟩ := closeComments_ends Nat.one_pos (Place.scanner ⟨cs, 0, .start⟩)
  have hclose := Scanner.closeComments_eq 0 cs 0 .start
  rw [Nat.zero_add] at hclose
  have hafter : (Scanner.closeComments 1 (Place.scanner ⟨cs, 0, .start⟩)).rest =
      encode (cs.drop (Lexeme.blockLength 0 cs)) := by
    rw [hclose, Place.scanner, Place.chars_skip]
  rw [hafter] at hends
  have hinside : encode (cs.take (Lexeme.blockLength 0 cs)) = inside := by
    have hsplit : encode cs = encode (cs.take (Lexeme.blockLength 0 cs)) ++
        encode (cs.drop (Lexeme.blockLength 0 cs)) := by
      rw [← encode_append, List.take_append_drop]
    exact List.append_cancel_right (hsplit.symm.trans hends.append_eq)
  rw [hinside]
  exact hends

end Scan

section Balance
variable {body others front back : List Piece} {b : UInt8} {bs rest part : List UInt8}

/-- An opening mark begins the text, and each mark that opens a comment has one that closes it. -/
structure Balanced (bytes : List UInt8) : Prop where
  opens : openMark <+: bytes
  stays : ∀ front, front <+: pieces bytes → 0 ≤ depth 0 front
  closes : depth 0 (pieces bytes) = 0

theorem pieces_cons_of_begins (hopen : ∀ more, b = 0x2F → rest = 0x2A :: more → False)
    (hclose : ∀ more, b = 0x2A → rest = 0x2F :: more → False) (h : part <+: rest) :
    pieces (b :: part) = .other b :: pieces part := by
  obtain ⟨tail, rfl⟩ := h
  rw [pieces.eq_3]
  · rintro more rfl rfl
    exact hopen _ rfl rfl
  · rintro more rfl rfl
    exact hclose _ rfl rfl

/-- Pieces in front of others are cut in the same way without them. -/
theorem pieces_flatMap_bytes (h : pieces bs = front ++ back) :
    pieces (front.flatMap Piece.bytes) = front := by
  induction bs using pieces.induct generalizing front with
  | case1 rest ih =>
    cases front with
    | nil => rfl
    | cons piece front =>
      obtain ⟨rfl, hrest⟩ := List.cons.inj h
      exact congrArg _ (ih hrest)
  | case2 rest ih =>
    cases front with
    | nil => rfl
    | cons piece front =>
      obtain ⟨rfl, hrest⟩ := List.cons.inj h
      exact congrArg _ (ih hrest)
  | case3 b rest hopen hclose ih =>
    cases front with
    | nil => rfl
    | cons piece front =>
      rw [pieces.eq_3 _ _ hopen hclose] at h
      obtain ⟨rfl, hrest⟩ : Piece.other b = piece ∧ pieces rest = front ++ back :=
        List.cons.inj h
      have hbegins : front.flatMap Piece.bytes <+: rest := by
        rw [← flatMap_bytes_pieces rest, hrest, List.flatMap_append]
        exact List.prefix_append _ _
      rw [List.flatMap_cons]
      exact (pieces_cons_of_begins hopen hclose hbegins).trans (congrArg _ (ih hrest))
  | case4 =>
    obtain ⟨rfl, -⟩ := List.append_eq_nil_iff.1 h.symm
    rfl

/-- When bytes are left out at the end, some piece is, and of a mark that was cut nothing counts. -/
theorem exists_depth_take (bs : List UInt8) {n : Nat} (hn : n < bs.length) (outer : Int) :
    ∃ front piece back, pieces bs = front ++ piece :: back ∧
      depth outer (pieces (bs.take n)) = depth outer front := by
  induction bs using pieces.induct generalizing n outer with
  | case1 rest ih =>
    match n with
    | 0 => exact ⟨[], _, _, rfl, rfl⟩
    | 1 => exact ⟨[], _, _, rfl, rfl⟩
    | n + 2 =>
      obtain ⟨front, piece, back, hcut, hdepth⟩ := ih (by simpa using hn) (outer + 1)
      refine ⟨.opening :: front, piece, back, congrArg _ hcut, ?_⟩
      rw [depth_cons]
      exact (depth_cons _ .opening _).trans hdepth
  | case2 rest ih =>
    match n with
    | 0 => exact ⟨[], _, _, rfl, rfl⟩
    | 1 => exact ⟨[], _, _, rfl, rfl⟩
    | n + 2 =>
      obtain ⟨front, piece, back, hcut, hdepth⟩ := ih (by simpa using hn) (outer + -1)
      refine ⟨.closing :: front, piece, back, congrArg _ hcut, ?_⟩
      rw [depth_cons]
      exact (depth_cons _ .closing _).trans hdepth
  | case3 b rest hopen hclose ih =>
    match n with
    | 0 => exact ⟨[], _, _, pieces.eq_3 _ _ hopen hclose, rfl⟩
    | n + 1 =>
      obtain ⟨front, piece, back, hcut, hdepth⟩ := ih (by simpa using hn) (outer + 0)
      refine ⟨.other b :: front, piece, back, ?_, ?_⟩
      · rw [pieces.eq_3 _ _ hopen hclose, hcut, List.cons_append]
      · rw [List.take_succ_cons, pieces_cons_of_begins hopen hclose (List.take_prefix n rest),
          depth_cons, depth_cons]
        exact hdepth
  | case4 => exact absurd hn (Nat.not_lt_zero n)

theorem ClosedBehind.balanced (h : ClosedBehind 1 body) {bs : List UInt8}
    (hcut : pieces bs = body ++ .closing :: others) :
    Balanced (openMark ++ (body.flatMap Piece.bytes ++ closeMark)) ∧
      ∀ part, part <+: openMark ++ (body.flatMap Piece.bytes ++ closeMark) → Balanced part →
        part = openMark ++ (body.flatMap Piece.bytes ++ closeMark) := by
  have hinside : pieces (body.flatMap Piece.bytes ++ closeMark) = body ++ [.closing] := by
    have hfront : pieces bs = (body ++ [.closing]) ++ others := by simpa using hcut
    have := pieces_flatMap_bytes hfront
    rwa [List.flatMap_append] at this
  generalize body.flatMap Piece.bytes ++ closeMark = inside at hinside ⊢
  have hopen (more : List UInt8) : pieces (openMark ++ more) = .opening :: pieces more := rfl
  refine ⟨⟨List.prefix_append _ _, fun front hfront => ?_, ?_⟩, fun part hpart hbalanced => ?_⟩
  · rw [hopen, hinside] at hfront
    rcases List.prefix_cons_iff.1 hfront with rfl | ⟨front, rfl, hrest⟩
    · exact Int.le_refl 0
    · rw [depth_cons]
      rcases List.prefix_concat_iff.1 hrest with rfl | hrest
      · exact h.closes.ge
      · exact (h.stays front hrest).le
  · rw [hopen, hinside, depth_cons]
    exact h.closes
  · obtain ⟨more, rfl⟩ := hbalanced.opens
    have hmore : more <+: inside := (List.prefix_append_right_inj openMark).1 hpart
    have hzero : depth 1 (pieces more) = 0 := by
      have := hbalanced.closes
      rwa [hopen, depth_cons] at this
    by_contra hne
    have hlt : more.length < inside.length := by
      refine lt_of_le_of_ne hmore.length_le fun hlength => hne ?_
      rw [hmore.eq_of_length hlength]
    obtain ⟨front, piece, back, hsplit, hdepth⟩ := exists_depth_take inside hlt 1
    rw [← List.prefix_iff_eq_take.1 hmore, hzero] at hdepth
    have hfront : front <+: body := by
      rw [hinside] at hsplit
      have hbegins : front <+: body ++ [.closing] := hsplit ▸ List.prefix_append _ _
      refine (List.prefix_concat_iff.1 hbegins).resolve_left fun heq => ?_
      rw [heq] at hsplit
      simp at hsplit
    have := h.stays front hfront
    omega

end Balance

section Wrap
variable {bs : List UInt8} {c : List Char}

/-- A closing mark is not read into what stands in front of it, unless that ends with a slash. -/
theorem pieces_append_closeMark (h : bs.getLast? ≠ some 0x2F) :
    pieces (bs ++ closeMark) = pieces bs ++ [.closing] := by
  induction bs using pieces.induct with
  | case1 rest ih =>
    refine congrArg _ (ih fun hlast => h ?_)
    rw [List.getLast?_cons, List.getLast?_cons, hlast]
    rfl
  | case2 rest ih =>
    refine congrArg _ (ih fun hlast => h ?_)
    rw [List.getLast?_cons, List.getLast?_cons, hlast]
    rfl
  | case3 b rest hopen hclose ih =>
    have hrest : rest.getLast? ≠ some 0x2F := by
      intro hlast
      rw [List.getLast?_cons, hlast] at h
      exact h rfl
    rw [List.cons_append, pieces.eq_3 _ _ hopen hclose, pieces.eq_3, ih hrest, List.cons_append]
    · rintro more rfl hmore
      cases rest with
      | nil => exact h rfl
      | cons x rest => exact hopen rest rfl (by rw [(List.cons.inj hmore).1])
    · rintro more rfl hmore
      cases rest with
      | nil => cases hmore
      | cons x rest => exact hclose rest rfl (by rw [(List.cons.inj hmore).1])
  | case4 => rfl

theorem getLast?_encode_ne (h : c.getLast? ≠ some '/') : (encode c).getLast? ≠ some 0x2F := by
  rcases List.eq_nil_or_concat c with rfl | ⟨front, d, rfl⟩
  · exact nofun
  · rw [List.concat_eq_append] at h ⊢
    have hne : String.utf8EncodeChar d ≠ [] := String.utf8EncodeChar_ne_nil
    rw [encode_append, encode_cons, Text.Utf8.encode_nil, List.append_nil,
      List.getLast?_append_of_ne_nil _ hne]
    intro hlast
    by_cases hd : d.toNat < 0x80
    · rw [Text.Utf8.bytes_of_ascii hd] at hlast
      have hbyte : UInt8.ofNat d.toNat = 0x2F := Option.some.inj hlast
      refine h ?_
      rw [List.getLast?_concat, ← ofUInt8_ofNat hd, hbyte]
      rfl
    · have hwide := Text.Utf8.wide_of_mem (Nat.le_of_not_lt hd) _ (List.mem_of_getLast? hlast)
      exact absurd hwide (by decide)

theorem closedBehind_of_balanced {ps : List Piece}
    (hstays : ∀ front, front <+: ps → 0 ≤ depth 0 front) (hcloses : depth 0 ps = 0) :
    ClosedBehind 1 ps := by
  have hone (front : List Piece) : depth 1 front = depth 0 front + 1 := by
    simp only [depth]
    omega
  refine ⟨fun front hfront => ?_, ?_⟩
  · have := hstays front hfront
    rw [hone]
    omega
  · rw [depth_append, hone, hcloses]
    rfl

/-- A text in which comments are closed is left by the mark that closes the comment around it. -/
theorem blockLength_append_close (hlast : c.getLast? ≠ some '/')
    (hstays : ∀ front, front <+: pieces (encode c) → 0 ≤ depth 0 front)
    (hcloses : depth 0 (pieces (encode c)) = 0) :
    (c ++ ['*', '/']).drop (Lexeme.blockLength 0 (c ++ ['*', '/'])) = [] := by
  have hcut : pieces (encode (c ++ ['*', '/'])) = pieces (encode c) ++ .closing :: [] := by
    rw [encode_append]
    exact pieces_append_closeMark (getLast?_encode_ne hlast)
  have hends := blockLength_ends (c ++ ['*', '/'])
  obtain ⟨-, hafter⟩ := hends.of_closed hcut (closedBehind_of_balanced hstays hcloses)
  generalize (c ++ ['*', '/']).drop _ = rest at hafter
  cases rest with
  | nil => rfl
  | cons d rest =>
    rw [encode_cons] at hafter
    simp [String.utf8EncodeChar_ne_nil] at hafter

end Wrap

section Kind
open Lexeme (extent_cases extent_lineComment extent_slash extent_rawString extent_string
  kind_quoted)
variable {c : Char} {rest : List Char}

/-- A text in UTF-8 begins another one just when its bytes begin the bytes of the other. -/
theorem encode_prefix_iff {xs ys : List Char} : encode xs <+: encode ys ↔ xs <+: ys := by
  constructor
  · rintro ⟨tail, htail⟩
    induction xs generalizing ys with
    | nil => exact List.nil_prefix
    | cons x xs ih =>
      rw [encode_cons, List.append_assoc] at htail
      cases ys with
      | nil => simp [String.utf8EncodeChar_ne_nil] at htail
      | cons y ys =>
        rw [encode_cons] at htail
        have hread := congrArg Text.Utf8.readChar? htail
        rw [Text.Utf8.readChar?_append, Text.Utf8.readChar?_append] at hread
        obtain rfl := Option.some.inj hread
        rw [List.cons_prefix_cons]
        exact ⟨rfl, ih (List.append_cancel_left htail)⟩
  · rintro ⟨tail, rfl⟩
    rw [encode_append]
    exact List.prefix_append _ _

theorem extent_kind_ne (h : ¬ ['/', '*'] <+: c :: rest) (kind : CommentKind)
    (hkind : kind ≠ .line) : (Lexeme.extent c rest).kind ≠ .comment kind := by
  induction c, rest using extent_cases with
  | lineComment more => simpa [extent_lineComment] using hkind.symm
  | blockComment more => exact absurd (List.prefix_append ['/', '*'] more) h
  | slash rest hline hblock => simp [extent_slash hline hblock]
  | rawString more => simp [extent_rawString]
  | string rest hquotes => simp [extent_string hquotes]
  | apostrophe rest =>
    have hextent : Lexeme.extent '\'' rest = Lexeme.quoted rest := rfl
    rcases kind_quoted rest with hquoted | hquoted <;> simp [hextent, hquoted]
  | backquote rest => exact nofun
  | word c rest hextent =>
    rw [hextent]
    split <;> exact nofun
  | number c rest hextent | operator c rest hextent | punct c rest hextent => simp [hextent]

/-- The first characters tell a block comment, and which of these is a doc comment. -/
theorem extent_kind_iff (c : Char) (rest : List Char) :
    ((Lexeme.extent c rest).kind = .comment .block ∨ (Lexeme.extent c rest).kind = .comment .doc ↔
      ['/', '*'] <+: c :: rest) ∧
    ((Lexeme.extent c rest).kind = .comment .doc ↔
      ['/', '*', '*'] <+: c :: rest ∧ ¬ ['/', '*', '*', '/'] <+: c :: rest) := by
  by_cases h : ['/', '*'] <+: c :: rest
  case pos =>
    obtain ⟨rfl, more, rfl⟩ := List.cons_prefix_cons.1 h
    have hkind : (Lexeme.extent '/' (['*'] ++ more)).kind =
        .comment (if more[0]? = some '*' && more[1]? ≠ some '/' then .doc else .block) := rfl
    rw [hkind]
    rcases more with _ | ⟨x, _ | ⟨y, more⟩⟩
    · simp
    · by_cases hx : x = '*' <;> simp [hx, @eq_comm _ '*' x]
    · by_cases hx : x = '*' <;> by_cases hy : y = '/' <;>
        simp [hx, hy, @eq_comm _ '*' x, @eq_comm _ '/' y]
  case neg =>
    have hstar : ¬ ['/', '*', '*'] <+: c :: rest :=
      fun hdoc => h ((List.prefix_append ['/', '*'] ['*']).trans hdoc)
    have hblock := extent_kind_ne h .block (by decide)
    have hdoc := extent_kind_ne h .doc (by decide)
    simp only [hblock, hdoc, h, hstar, or_self, false_and, and_self]

end Kind

section Token
variable {t : Token} {c : Char} {rest : List Char} {inner : List UInt8}

theorem encode_openMark (cs : List Char) : encode (['/', '*'] ++ cs) = openMark ++ encode cs :=
  encode_append _ _

/-- The lexeme behind an opening mark is the comment up to its end. -/
theorem ends_of_lexeme (hinner : encode (c :: rest) = openMark ++ inner)
    (htext : t.text.toList = c :: rest.take (Lexeme.extent c rest).length) :
    ∃ inside after, t.bytes = openMark ++ inside ∧ Ends 1 inner inside after := by
  have hmark : ['/', '*'] <+: c :: rest := by
    refine encode_prefix_iff.1 ⟨inner, ?_⟩
    rw [hinner]
    rfl
  obtain ⟨rfl, more, rfl⟩ := List.cons_prefix_cons.1 hmark
  obtain rfl : encode more = inner :=
    List.append_cancel_left ((encode_openMark more).symm.trans hinner)
  have hlength : (Lexeme.extent '/' (['*'] ++ more)).length = 1 + Lexeme.blockLength 0 more := rfl
  refine ⟨_, _, ?_, blockLength_ends more⟩
  rw [Token.bytes, htext, hlength, Nat.add_comm, List.singleton_append, List.take_succ_cons]
  exact encode_openMark _

/-- A text in which comments are closed is one comment between marks. -/
theorem tokenize_wrap (hlast : rest.getLast? ≠ some '/')
    (hstays : ∀ front, front <+: pieces (encode rest) → 0 ≤ depth 0 front)
    (hcloses : depth 0 (pieces (encode rest)) = 0) :
    ∃ t, tokenize (['/', '*'] ++ (rest ++ ['*', '/'])) = [t] ∧
      (t.kind = .comment .block ∨ t.kind = .comment .doc) ∧
      t.text.toList = ['/', '*'] ++ (rest ++ ['*', '/']) := by
  have hdrop := blockLength_append_close hlast hstays hcloses
  generalize rest ++ ['*', '/'] = more at hdrop ⊢
  have hextent : (Lexeme.extent '/' ('*' :: more)).length = Lexeme.blockLength 0 more + 1 :=
    Nat.add_comm _ _
  have htokens : tokenize (['/', '*'] ++ more) = [⟨(Lexeme.extent '/' ('*' :: more)).kind,
      String.ofList ('/' :: ('*' :: more).take (Lexeme.blockLength 0 more + 1)), .start,
      Position.start.advanceAll
        ('/' :: ('*' :: more).take (Lexeme.blockLength 0 more + 1)) []⟩] := by
    rw [tokenize_eq, List.cons_append, List.singleton_append, tokensFrom, if_neg (by decide)]
    simp only [hextent, List.drop_succ_cons, hdrop, tokensFrom]
  refine ⟨_, htokens, (extent_kind_iff '/' ('*' :: more)).1.2 (List.prefix_append ['/', '*'] more),
    ?_⟩
  have htake := List.take_append_drop (Lexeme.blockLength 0 more) more
  rw [hdrop, List.append_nil] at htake
  rw [String.toList_ofList, List.take_succ_cons, htake]
  rfl

end Token

/-- A comment that begins with `/*` ends right behind the first closing mark that leaves no comment
open, and it takes the rest of the text if there is none. When it is closed, its own marks are
balanced, and they are not in any shorter text that it begins with. It is a doc comment when
it begins with `/**` and no slash follows. A text with comments that are closed, and without a slash
at its end, becomes one comment when marks are put around it. -/
theorem tokenize_blockComment :
    (∀ {source : List Char} {earlier later : List Token} {t : Token},
      tokenize source = earlier ++ t :: later →
      ∃ before ahead, encode source = before ++ ahead ∧ t.StandsAt source earlier before.length ∧
        ((t.kind = .comment .block ∨ t.kind = .comment .doc) ↔ openMark <+: ahead) ∧
        (t.kind = .comment .doc ↔
          openMark ++ [0x2A] <+: ahead ∧ ¬ openMark ++ [0x2A, 0x2F] <+: ahead) ∧
        ∀ inner, ahead = openMark ++ inner →
          (∃ body others, pieces inner = body ++ .closing :: others ∧ ClosedBehind 1 body ∧
            t.bytes = openMark ++ (body.flatMap Piece.bytes ++ closeMark) ∧ Balanced t.bytes ∧
            ∀ part, part <+: t.bytes → Balanced part → part = t.bytes) ∨
          (∀ front, front <+: pieces inner → 0 < depth 1 front) ∧ t.bytes = ahead) ∧
    ∀ c : List Char, c.getLast? ≠ some '/' →
      (∀ front, front <+: pieces (encode c) → 0 ≤ depth 0 front) →
      depth 0 (pieces (encode c)) = 0 →
      ∃ t, tokenize (['/', '*'] ++ (c ++ ['*', '/'])) = [t] ∧
        (t.kind = .comment .block ∨ t.kind = .comment .doc) ∧
        t.text.toList = ['/', '*'] ++ (c ++ ['*', '/']) := by
  constructor
  case left =>
    intro source earlier later t h
    have htokens := h
    rw [tokenize_eq] at h
    obtain ⟨before, c, rest, hsource, hkind, hreads⟩ := exists_lexeme h
    obtain ⟨hcomment, hdoc⟩ := extent_kind_iff c rest
    have hsplit : before ++ (c :: rest.take (Lexeme.extent c rest).length ++
        rest.drop (Lexeme.extent c rest).length) = source := by
      rw [hsource, List.cons_append, List.take_append_drop]
    refine ⟨encode before, encode (c :: rest), ?_, ?_, ?_, ?_, fun inner hinner => ?_⟩
    · rw [hsource, encode_append]
    · rw [← hsplit] at htokens ⊢
      exact (hreads.standsAt_iff htokens).2 rfl
    · rw [hkind]
      exact hcomment.trans encode_prefix_iff.symm
    · rw [hkind]
      exact hdoc.trans (and_congr encode_prefix_iff.symm (not_congr encode_prefix_iff.symm))
    · obtain ⟨inside, after, hbytes, hends⟩ := ends_of_lexeme hinner hreads.text_eq
      cases hends with
      | @closed body others hcut hbody =>
        rw [hbytes]
        exact .inl ⟨body, others, hcut, hbody, rfl, hbody.balanced hcut⟩
      | unclosed hstays => exact .inr ⟨hstays, by rw [hbytes, hinner]⟩
  case right =>
    intro c hlast hstays hcloses
    exact tokenize_wrap hlast hstays hcloses

/-- A comment in a comment, and a text that holds a comment and is put between marks. -/
theorem tokenize_blockComment_nested :
    let source := "x /** a /* b */ */ y".toList
    let before : Token := ⟨.ident, "x", ⟨1, 0⟩, ⟨1, 1⟩⟩
    let comment : Token := ⟨.comment .doc, "/** a /* b */ */", ⟨1, 2⟩, ⟨1, 18⟩⟩
    let behind : Token := ⟨.ident, "y", ⟨1, 19⟩, ⟨1, 20⟩⟩
    tokenize source = [before] ++ comment :: [behind] ∧
      (∃ front ahead, encode source = front ++ ahead ∧
        comment.StandsAt source [before] front.length ∧
        openMark ++ [0x2A] <+: ahead ∧ ¬ openMark ++ [0x2A, 0x2F] <+: ahead) ∧
      ∃ t, tokenize "/*/* a */ b*/".toList = [t] ∧ t.text.toList = "/*/* a */ b*/".toList := by
  intro source before comment behind
  obtain ⟨hread, hwrap⟩ := tokenize_blockComment
  have htokens : tokenize source = [before] ++ comment :: [behind] := by decide +kernel
  obtain ⟨front, ahead, hsplit, hstands, -, hdoc, -⟩ := hread htokens
  refine ⟨htokens, ⟨front, ahead, hsplit, hstands, hdoc.1 rfl⟩, ?_⟩
  have hstays : ∀ ps ∈ (pieces (encode "/* a */ b".toList)).inits, 0 ≤ depth 0 ps := by decide
  obtain ⟨t, ht, -, htext⟩ := hwrap "/* a */ b".toList (by decide)
    (fun ps hps => hstays ps ((List.mem_inits _ _).2 hps)) (by decide)
  exact ⟨t, ht, htext⟩

end BlockComment
end SourceGauge.Scala
