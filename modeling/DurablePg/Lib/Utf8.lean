import Mathlib.Data.List.Basic
import Mathlib.Data.Char

/-!
UTF-8: which bytes are those of a character.

The byte patterns of the standard's table are those the characters have, and no pattern is the
front of another, so that a byte string begins with the bytes of one character at most.
-/

namespace DurablePg.Lib.Utf8

/-- The bytes of a character. -/
abbrev encode : Char → List UInt8 := String.utf8EncodeChar

/-- A byte that continues a character. -/
def IsTail (b : UInt8) : Prop := 0x80 ≤ b.toNat ∧ b.toNat ≤ 0xBF

/-- The well-formed byte sequences of one character, by their width. -/
inductive WellFormed : List UInt8 → Prop
  | one {a : UInt8} (ha : a.toNat ≤ 0x7F) : WellFormed [a]
  | two {a b : UInt8} (ha : 0xC2 ≤ a.toNat ∧ a.toNat ≤ 0xDF) (hb : IsTail b) : WellFormed [a, b]
  /-- No shorter form, and no surrogate. -/
  | three {a b c : UInt8} (ha : 0xE0 ≤ a.toNat ∧ a.toNat ≤ 0xEF) (hb : IsTail b)
    (hshort : a.toNat = 0xE0 → 0xA0 ≤ b.toNat) (hsurrogate : a.toNat = 0xED → b.toNat ≤ 0x9F)
    (hc : IsTail c) : WellFormed [a, b, c]
  /-- No shorter form, and nothing above the last code point. -/
  | four {a b c d : UInt8} (ha : 0xF0 ≤ a.toNat ∧ a.toNat ≤ 0xF4) (hb : IsTail b)
    (hshort : a.toNat = 0xF0 → 0x90 ≤ b.toNat) (hlast : a.toNat = 0xF4 → b.toNat ≤ 0x8F)
    (hc : IsTail c) (hd : IsTail d) : WellFormed [a, b, c, d]

/-- The code point a sequence stands for. -/
def codePoint : List UInt8 → ℕ
  | [a] => a.toNat
  | [a, b] => a.toNat % 32 * 64 + b.toNat % 64
  | [a, b, c] => a.toNat % 16 * 4096 + b.toNat % 64 * 64 + c.toNat % 64
  | [a, b, c, d] => a.toNat % 8 * 262144 + b.toNat % 64 * 4096 + c.toNat % 64 * 64 + d.toNat % 64
  | _ => 0

lemma toNat_cases (c : Char) : c.toNat < 0xD800 ∨ 0xDFFF < c.toNat ∧ c.toNat < 0x110000 := c.valid

/-- The bytes for a code point, by its range. -/
def bytesOf (n : ℕ) : List UInt8 :=
  if n ≤ 0x7F then [.ofNat n]
  else if n ≤ 0x7FF then [.ofNat (n / 64 % 32 + 192), .ofNat (n % 64 + 128)]
  else if n ≤ 0xFFFF then
    [.ofNat (n / 4096 % 16 + 224), .ofNat (n / 64 % 64 + 128), .ofNat (n % 64 + 128)]
  else
    [.ofNat (n / 262144 % 8 + 240), .ofNat (n / 4096 % 64 + 128), .ofNat (n / 64 % 64 + 128),
      .ofNat (n % 64 + 128)]

lemma encode_eq (c : Char) : encode c = bytesOf c.toNat := rfl

lemma encode_ofNat {n : ℕ} (hn : n < 0xD800 ∨ 0xDFFF < n ∧ n < 0x110000) :
    encode (Char.ofNat n) = bytesOf n := by
  have hnat : (Char.ofNat n).toNat = n := by
    unfold Char.ofNat
    rw [dif_pos hn]
    rfl
  rw [encode_eq, hnat]

/-- **Characters encode to well-formed sequences, which stand for them.** -/
lemma encode_spec (c : Char) : WellFormed (encode c) ∧ codePoint (encode c) = c.toNat := by
  have hc := toNat_cases c
  rw [encode_eq]
  unfold bytesOf
  split
  · refine ⟨.one ?_, ?_⟩
    all_goals simp only [codePoint, UInt8.toNat_ofNat']; omega
  split
  · refine ⟨.two ?_ ?_, ?_⟩
    all_goals simp only [codePoint, IsTail, UInt8.toNat_ofNat']; omega
  split
  · refine ⟨.three ?_ ?_ ?_ ?_ ?_, ?_⟩
    all_goals simp only [codePoint, IsTail, UInt8.toNat_ofNat']; omega
  · refine ⟨.four ?_ ?_ ?_ ?_ ?_ ?_, ?_⟩
    all_goals simp only [codePoint, IsTail, UInt8.toNat_ofNat']; omega

lemma encode_injective : Function.Injective encode := by
  intro c d h
  rw [← Char.toNat_inj, ← (encode_spec c).2, ← (encode_spec d).2, h]

/-- **Every well-formed sequence is that of a character.** -/
lemma WellFormed.exists_char {l : List UInt8} (h : WellFormed l) : ∃ c, encode c = l := by
  have hbyte : ∀ {n : ℕ} {b : UInt8}, n = b.toNat → UInt8.ofNat n = b := by
    rintro n b rfl
    exact UInt8.ofNat_toNat
  refine ⟨Char.ofNat (codePoint l), ?_⟩
  cases h with
  | @one a ha =>
    simp only [codePoint]
    rw [encode_ofNat (by omega), bytesOf, if_pos ha, UInt8.ofNat_toNat]
  | @two a b ha hb =>
    simp only [codePoint, IsTail] at *
    rw [encode_ofNat (by omega), bytesOf, if_neg (by omega), if_pos (by omega),
      hbyte (b := a) (by omega), hbyte (b := b) (by omega)]
  | @three a b c ha hb hshort hsurrogate hc =>
    simp only [codePoint, IsTail] at *
    rw [encode_ofNat (by omega), bytesOf, if_neg (by omega), if_neg (by omega),
      if_pos (by omega), hbyte (b := a) (by omega), hbyte (b := b) (by omega),
      hbyte (b := c) (by omega)]
  | @four a b c d ha hb hshort hlast hc hd =>
    simp only [codePoint, IsTail] at *
    rw [encode_ofNat (by omega), bytesOf, if_neg (by omega), if_neg (by omega),
      if_neg (by omega), hbyte (b := a) (by omega), hbyte (b := b) (by omega),
      hbyte (b := c) (by omega), hbyte (b := d) (by omega)]

lemma WellFormed.length_eq {a : UInt8} {l : List UInt8} (h : WellFormed (a :: l)) :
    l.length = (if a.toNat ≤ 0x7F then 0 else if a.toNat ≤ 0xDF then 1
      else if a.toNat ≤ 0xEF then 2 else 3) ∧ ¬ IsTail a ∧ ∀ b ∈ l, IsTail b := by
  cases h with
  | one ha =>
    rw [if_pos ha]
    exact ⟨rfl, fun hx => by unfold IsTail at hx; omega, fun b hb => by cases hb⟩
  | two ha hb =>
    rw [if_neg (by omega), if_pos ha.2]
    exact ⟨rfl, fun hx => by unfold IsTail at hx; omega, by simpa using hb⟩
  | three ha hb _ _ hc =>
    rw [if_neg (by omega), if_neg (by omega), if_pos ha.2]
    exact ⟨rfl, fun hx => by unfold IsTail at hx; omega, by simpa using ⟨hb, hc⟩⟩
  | four ha hb _ _ hc hd =>
    rw [if_neg (by omega), if_neg (by omega), if_neg (by omega)]
    exact ⟨rfl, fun hx => by unfold IsTail at hx; omega, by simpa using ⟨hb, hc, hd⟩⟩

lemma encode_cons (c : Char) : ∃ a l, encode c = a :: l ∧ WellFormed (a :: l) := by
  have hwf := (encode_spec c).1
  rcases h : encode c with _ | ⟨a, l⟩
  · rw [h] at hwf
    cases hwf
  · rw [h] at hwf
    exact ⟨a, l, rfl, hwf⟩

lemma length_encode_le (c : Char) : (encode c).length ≤ 4 := by
  rw [String.length_utf8EncodeChar]
  exact c.utf8Size_le_four

/-- **No character's bytes are the front of another's.** -/
lemma encode_append_inj {c d : Char} {s t : List UInt8} (h : encode c ++ s = encode d ++ t) :
    c = d ∧ s = t := by
  obtain ⟨a, l, hc, hwf⟩ := encode_cons c
  obtain ⟨b, m, hd, hwf'⟩ := encode_cons d
  rw [hc, hd] at h
  obtain ⟨rfl, htail⟩ := List.cons.inj h
  obtain ⟨rfl, rfl⟩ := List.append_inj htail (hwf.length_eq.1.trans hwf'.length_eq.1.symm)
  exact ⟨encode_injective (hc.trans hd.symm), rfl⟩

/-! ### Texts -/

/-- The bytes of a text. -/
def bytes (cs : List Char) : List UInt8 := cs.flatMap encode

@[simp] lemma bytes_nil : bytes [] = [] := rfl

@[simp] lemma bytes_cons (c : Char) (cs : List Char) : bytes (c :: cs) = encode c ++ bytes cs := rfl

@[simp] lemma bytes_append (cs ds : List Char) : bytes (cs ++ ds) = bytes cs ++ bytes ds :=
  List.flatMap_append

/-- A place between two characters, counted in bytes. -/
def Boundary (cs : List Char) (i : ℕ) : Prop := ∃ k, (bytes (cs.take k)).length = i

lemma boundary_zero (cs : List Char) : Boundary cs 0 := ⟨0, rfl⟩

lemma boundary_cons {c : Char} {cs : List Char} {i : ℕ} : Boundary (c :: cs) i ↔
    i = 0 ∨ ∃ j, Boundary cs j ∧ i = (encode c).length + j := by
  constructor
  · rintro ⟨k, rfl⟩
    rcases k with _ | k
    · exact Or.inl rfl
    · refine Or.inr ⟨_, ⟨k, rfl⟩, ?_⟩
      rw [List.take_succ_cons, bytes_cons, List.length_append]
  · rintro (rfl | ⟨j, ⟨k, rfl⟩, rfl⟩)
    · exact boundary_zero _
    · refine ⟨k + 1, ?_⟩
      rw [List.take_succ_cons, bytes_cons, List.length_append]

lemma Boundary.take {cs : List Char} {i : ℕ} (h : Boundary cs i) :
    ∃ k, (bytes cs).take i = bytes (cs.take k) := by
  obtain ⟨k, rfl⟩ := h
  refine ⟨k, ?_⟩
  have happ : bytes cs = bytes (cs.take k) ++ bytes (cs.drop k) := by
    rw [← bytes_append, List.take_append_drop]
  rw [happ, List.take_left]

/-- **Boundaries are told by the byte that follows.** -/
lemma not_isTail_iff {cs : List Char} {i : ℕ} {b : UInt8} (h : (bytes cs)[i]? = some b) :
    ¬ IsTail b ↔ Boundary cs i := by
  induction cs generalizing i with
  | nil => simp at h
  | cons c cs ih =>
    obtain ⟨a, l, hc, hwf⟩ := encode_cons c
    obtain ⟨-, hstart, htail⟩ := hwf.length_eq
    rw [boundary_cons]
    rw [bytes_cons] at h
    rcases Nat.lt_or_ge i (encode c).length with hi | hi
    · rw [List.getElem?_append_left hi, hc] at h
      rcases i with _ | i
      · cases h
        simp [hstart]
      · -- inside the character
        rw [List.getElem?_cons_succ] at h
        have hb := htail b (List.mem_of_getElem? h)
        refine ⟨fun hnot => absurd hb hnot, ?_⟩
        rintro (h0 | ⟨j, -, hj⟩) <;> omega
    · rw [List.getElem?_append_right hi] at h
      rw [ih h]
      refine ⟨fun hb => Or.inr ⟨_, hb, by omega⟩, ?_⟩
      rintro (h0 | ⟨j, hb, hj⟩)
      · rw [hc] at hi
        simp only [List.length_cons] at hi
        omega
      · rwa [hj, Nat.add_sub_cancel_left]

lemma exists_boundary_near {cs : List Char} {n : ℕ} (h : n < (bytes cs).length) :
    ∃ i, Boundary cs i ∧ i ≤ n ∧ n < i + 4 := by
  induction cs generalizing n with
  | nil => simp at h
  | cons c cs ih =>
    have hle := length_encode_le c
    rw [bytes_cons, List.length_append] at h
    rcases Nat.lt_or_ge n (encode c).length with hn | hn
    · exact ⟨0, boundary_zero _, by omega, by omega⟩
    · obtain ⟨i, hi, hin, hni⟩ := ih (n := n - (encode c).length) (by omega)
      exact ⟨_, boundary_cons.mpr (Or.inr ⟨i, hi, rfl⟩), by omega, by omega⟩

/-! ### Any bytes -/

/-- What a byte string falls into: characters, and bytes that are not part of one. -/
inductive Piece
  | rune (c : Char)
  | invalid (b : UInt8)

def Piece.IsInvalid : Piece → Prop
  | .rune _ => False
  | .invalid _ => True

instance : DecidablePred Piece.IsInvalid
  | .rune _ => isFalse id
  | .invalid _ => isTrue trivial

/-- A byte string read from its front: a character where there is one, and a single byte where
no character begins. -/
inductive Decodes : List UInt8 → List Piece → Prop
  | nil : Decodes [] []
  | rune {c : Char} {bs : List UInt8} {ps : List Piece} (h : Decodes bs ps) :
    Decodes (encode c ++ bs) (.rune c :: ps)
  | invalid {b : UInt8} {bs : List UInt8} {ps : List Piece} (hb : ∀ c, ¬ encode c <+: b :: bs)
    (h : Decodes bs ps) : Decodes (b :: bs) (.invalid b :: ps)

lemma decodes_exists (bs : List UInt8) : ∃ ps, Decodes bs ps := by
  induction hn : bs.length using Nat.strong_induction_on generalizing bs with
  | _ n ih =>
    rcases bs with _ | ⟨b, bs⟩
    · exact ⟨[], .nil⟩
    by_cases hc : ∃ c, encode c <+: b :: bs
    · obtain ⟨c, rest, hrest⟩ := hc
      obtain ⟨a, l, henc, -⟩ := encode_cons c
      have hlen := congrArg List.length hrest
      rw [List.length_append, henc, List.length_cons] at hlen
      obtain ⟨ps, hps⟩ := ih rest.length (by omega) rest rfl
      rw [← hrest]
      exact ⟨_, .rune hps⟩
    · obtain ⟨ps, hps⟩ := ih bs.length (by rw [← hn]; exact Nat.lt_succ_self _) bs rfl
      exact ⟨_, .invalid (fun c h => hc ⟨c, h⟩) hps⟩

lemma Decodes.unique {bs : List UInt8} {ps qs : List Piece} (hp : Decodes bs ps)
    (hq : Decodes bs qs) : qs = ps := by
  induction hp generalizing qs with
  | nil =>
    generalize hbs : ([] : List UInt8) = bs at hq
    cases hq with
    | nil => rfl
    | @rune c =>
      obtain ⟨a, l, hc, -⟩ := encode_cons c
      rw [hc] at hbs
      cases hbs
    | invalid => cases hbs
  | @rune c bs ps h ih =>
    generalize hbs : encode c ++ bs = bs' at hq
    cases hq with
    | nil =>
      obtain ⟨a, l, hc, -⟩ := encode_cons c
      rw [hc] at hbs
      cases hbs
    | rune h' =>
      obtain ⟨rfl, rfl⟩ := encode_append_inj hbs
      rw [ih h']
    | invalid hb => exact absurd ⟨_, hbs⟩ (hb c)
  | @invalid b bs ps hb h ih =>
    generalize hbs : b :: bs = bs' at hq
    cases hq with
    | nil => cases hbs
    | @rune c => exact absurd ⟨_, hbs.symm⟩ (hb c)
    | invalid _ h' =>
      cases hbs
      rw [ih h']

lemma decodes_bytes (cs : List Char) : Decodes (bytes cs) (cs.map .rune) := by
  induction cs with
  | nil => exact .nil
  | cons c cs ih => exact .rune ih

end DurablePg.Lib.Utf8
