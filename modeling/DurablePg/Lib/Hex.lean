import Mathlib.Data.Nat.Digits.Defs
import Mathlib.Data.List.Lex

/-!
Hexadecimal texts of byte strings: what they spell, and how they are ordered.

Numbers are read with the most significant digit first. Among lists of one length, that order
is the lexicographic one, of digits as of bytes, and encoding keeps it.
-/

namespace DurablePg.Lib

/-! ### Numbers from digits -/

/-- The number that digits spell in a base, the most significant digit first. -/
def beValue (base : ℕ) (digits : List ℕ) : ℕ := Nat.ofDigits base digits.reverse

variable {base : ℕ}

@[simp] lemma beValue_nil : beValue base [] = 0 := rfl

lemma beValue_append (l m : List ℕ) :
    beValue base (l ++ m) = beValue base l * base ^ m.length + beValue base m := by
  unfold beValue
  rw [List.reverse_append, Nat.ofDigits_append, List.length_reverse]
  ring

lemma beValue_cons (d : ℕ) (l : List ℕ) :
    beValue base (d :: l) = d * base ^ l.length + beValue base l := by
  have hone : beValue base [d] = d := by simp [beValue]
  rw [← List.singleton_append, beValue_append, hone]

lemma beValue_lt (hbase : 1 < base) {l : List ℕ} (hl : ∀ d ∈ l, d < base) :
    beValue base l < base ^ l.length := by
  have h := Nat.ofDigits_lt_base_pow_length hbase (l := l.reverse) (by simpa using hl)
  rwa [List.length_reverse] at h

lemma lt_of_beValue_lt (hbase : 1 < base) {l m : List ℕ} (hl : ∀ d ∈ l, d < base)
    (hm : ∀ d ∈ m, d < base) (hlen : l.length = m.length)
    (h : beValue base l < beValue base m) : l < m := by
  induction l generalizing m with
  | nil =>
    rw [List.eq_nil_of_length_eq_zero hlen.symm] at h
    exact absurd h (lt_irrefl _)
  | cons d l ih =>
    rcases m with _ | ⟨e, m⟩
    · cases hlen
    have hlen' : l.length = m.length := Nat.succ.inj hlen
    rw [beValue_cons, beValue_cons, hlen'] at h
    have hmlt := beValue_lt hbase fun x hx => hm x (List.mem_cons_of_mem _ hx)
    rcases lt_trichotomy d e with hlt | rfl | hgt
    · exact List.cons_lt_cons_iff.mpr (Or.inl hlt)
    · refine List.cons_lt_cons_iff.mpr (Or.inr ⟨rfl, ?_⟩)
      exact ih (fun x hx => hl x (List.mem_cons_of_mem _ hx))
        (fun x hx => hm x (List.mem_cons_of_mem _ hx)) hlen' (by omega)
    · -- the larger digit outweighs all that follows
      have hmul : (e + 1) * base ^ m.length ≤ d * base ^ m.length := Nat.mul_le_mul_right _ hgt
      rw [Nat.add_mul, Nat.one_mul] at hmul
      omega

/-! ### Lexicographic order -/

section Lex

variable {α : Type*} [LT α]

lemma append_lt_append {l m : List α} (hlen : l.length = m.length) (h : l < m) (l' m' : List α) :
    l ++ l' < m ++ m' := by
  induction l generalizing m with
  | nil =>
    rw [List.eq_nil_of_length_eq_zero hlen.symm] at h
    exact absurd h (List.not_lt_nil _)
  | cons a l ih =>
    rcases m with _ | ⟨b, m⟩
    · cases hlen
    rcases List.cons_lt_cons_iff.mp h with hlt | ⟨rfl, hlt⟩
    · exact List.cons_lt_cons_iff.mpr (Or.inl hlt)
    · exact List.cons_lt_cons_iff.mpr (Or.inr ⟨rfl, ih (Nat.succ.inj hlen) hlt⟩)

lemma append_left_lt (l : List α) {m m' : List α} (h : m < m') : l ++ m < l ++ m' := by
  induction l with
  | nil => exact h
  | cons a l ih => exact List.cons_lt_cons_iff.mpr (Or.inr ⟨rfl, ih⟩)

lemma append_lt_cases {l m l' m' : List α} (hlen : l.length = m.length)
    (h : l ++ l' < m ++ m') : l < m ∨ l = m ∧ l' < m' := by
  induction l generalizing m with
  | nil =>
    obtain rfl := List.eq_nil_of_length_eq_zero hlen.symm
    exact Or.inr ⟨rfl, h⟩
  | cons a l ih =>
    rcases m with _ | ⟨b, m⟩
    · cases hlen
    rcases List.cons_lt_cons_iff.mp h with hlt | ⟨rfl, hlt⟩
    · exact Or.inl (List.cons_lt_cons_iff.mpr (Or.inl hlt))
    · rcases ih (Nat.succ.inj hlen) hlt with hhead | ⟨rfl, htail⟩
      · exact Or.inl (List.cons_lt_cons_iff.mpr (Or.inr ⟨rfl, hhead⟩))
      · exact Or.inr ⟨rfl, htail⟩

end Lex

/-! ### Hexadecimal digits -/

/-- The lower-case digit of a number below sixteen. -/
def hexDigit (n : ℕ) : Char := Char.ofNat (if n < 10 then 48 + n else 87 + n)

def isHexDigit (c : Char) : Bool := ('0' ≤ c && c ≤ '9') || ('a' ≤ c && c ≤ 'f')

/-- The number a digit stands for. -/
def hexValue (c : Char) : ℕ := if c.toNat < 58 then c.toNat - 48 else c.toNat - 87

lemma hexDigit_lt {m n : ℕ} (hmn : m < n) (hn : n < 16) : hexDigit m < hexDigit n := by
  have hall : ∀ m n : Fin 16, m < n → hexDigit m < hexDigit n := by decide
  exact hall ⟨m, hmn.trans hn⟩ ⟨n, hn⟩ hmn

lemma hexDigit_spec {n : ℕ} (hn : n < 16) :
    isHexDigit (hexDigit n) = true ∧ hexValue (hexDigit n) = n := by
  have hall : ∀ n : Fin 16, isHexDigit (hexDigit n) = true ∧ hexValue (hexDigit n) = n := by decide
  exact hall ⟨n, hn⟩

/-- The two digits of a byte. -/
def hexByte (b : UInt8) : List Char := [hexDigit (b.toNat / 16), hexDigit (b.toNat % 16)]

lemma div_lt_of_byte (b : UInt8) : b.toNat / 16 < 16 := by
  have := b.toNat_lt
  omega

lemma mod_lt_of_byte (b : UInt8) : b.toNat % 16 < 16 := Nat.mod_lt _ (by decide)

/-- `hex.Encode`. -/
def hexEncode (bs : List UInt8) : List Char := bs.flatMap hexByte

@[simp] lemma hexEncode_append (l m : List UInt8) :
    hexEncode (l ++ m) = hexEncode l ++ hexEncode m := List.flatMap_append

@[simp] lemma length_hexEncode (bs : List UInt8) : (hexEncode bs).length = 2 * bs.length := by
  induction bs with
  | nil => rfl
  | cons b bs ih =>
    rw [hexEncode, List.flatMap_cons, List.length_append]
    change 2 + (hexEncode bs).length = _
    rw [ih, List.length_cons]
    omega

lemma isHexDigit_of_mem {bs : List UInt8} {c : Char} (h : c ∈ hexEncode bs) :
    isHexDigit c = true := by
  obtain ⟨b, -, hc⟩ := List.mem_flatMap.mp h
  simp only [hexByte, List.mem_cons, List.not_mem_nil, or_false] at hc
  rcases hc with rfl | rfl
  · exact (hexDigit_spec (div_lt_of_byte b)).1
  · exact (hexDigit_spec (mod_lt_of_byte b)).1

lemma beValue_hexEncode (bs : List UInt8) :
    beValue 16 ((hexEncode bs).map hexValue) = beValue 256 (bs.map UInt8.toNat) := by
  induction bs with
  | nil => rfl
  | cons b bs ih =>
    have hbyte : (hexByte b).map hexValue = [b.toNat / 16, b.toNat % 16] := by
      simp [hexByte, (hexDigit_spec (div_lt_of_byte b)).2, (hexDigit_spec (mod_lt_of_byte b)).2]
    have hpow : (16 : ℕ) ^ (2 * bs.length) = 256 ^ bs.length := by rw [pow_mul]; norm_num
    have hb : beValue 16 [b.toNat / 16, b.toNat % 16] = b.toNat := by
      rw [beValue_cons, beValue_cons]
      simp only [List.length_singleton, pow_one, List.length_nil, pow_zero, mul_one, beValue_nil]
      omega
    have hcons : hexEncode (b :: bs) = hexByte b ++ hexEncode bs := rfl
    rw [hcons, List.map_append, beValue_append, hbyte, hb, ih, List.map_cons, beValue_cons]
    simp only [List.length_map, length_hexEncode, hpow]

lemma hexEncode_lt {l m : List UInt8} (h : l < m) : hexEncode l < hexEncode m := by
  induction l generalizing m with
  | nil =>
    rcases m with _ | ⟨b, m⟩
    · exact absurd h (List.not_lt_nil _)
    · exact List.nil_lt_cons _ _
  | cons a l ih =>
    rcases m with _ | ⟨b, m⟩
    · exact absurd h (List.not_lt_nil _)
    rcases List.cons_lt_cons_iff.mp h with hlt | ⟨rfl, hlt⟩
    · -- the bytes differ in their first digit, or in the second
      refine append_lt_append (l := hexByte a) (m := hexByte b) rfl ?_ _ _
      have hlt := UInt8.lt_iff_toNat_lt.mp hlt
      rcases Nat.lt_or_ge (a.toNat / 16) (b.toNat / 16) with hdiv | hdiv
      · exact List.cons_lt_cons_iff.mpr (Or.inl (hexDigit_lt hdiv (div_lt_of_byte b)))
      · have hsame : a.toNat / 16 = b.toNat / 16 := by omega
        refine List.cons_lt_cons_iff.mpr (Or.inr ⟨by rw [hsame], ?_⟩)
        exact List.cons_lt_cons_iff.mpr
          (Or.inl (hexDigit_lt (by omega) (mod_lt_of_byte b)))
    · exact append_left_lt _ (ih hlt)

lemma toNat_lt_of_mem {bs : List UInt8} {d : ℕ} (h : d ∈ bs.map UInt8.toNat) : d < 256 := by
  obtain ⟨b, -, rfl⟩ := List.mem_map.mp h
  exact b.toNat_lt

lemma beValue_bytes_lt (bs : List UInt8) :
    beValue 256 (bs.map UInt8.toNat) < 256 ^ bs.length := by
  have h : beValue 256 (bs.map UInt8.toNat) < 256 ^ (bs.map UInt8.toNat).length :=
    beValue_lt (by decide) fun _ hd => toNat_lt_of_mem hd
  rwa [List.length_map] at h

lemma bytes_lt {l m : List UInt8} (hlen : l.length = m.length)
    (h : beValue 256 (l.map UInt8.toNat) < beValue 256 (m.map UInt8.toNat)) : l < m := by
  have hlt := lt_of_beValue_lt (by decide) (fun _ hd => toNat_lt_of_mem hd)
    (fun _ hd => toNat_lt_of_mem hd) (by simpa using hlen) h
  clear h
  induction l generalizing m with
  | nil =>
    rw [List.eq_nil_of_length_eq_zero hlen.symm] at hlt
    exact absurd hlt (List.not_lt_nil _)
  | cons a l ih =>
    rcases m with _ | ⟨b, m⟩
    · cases hlen
    rcases List.cons_lt_cons_iff.mp hlt with hab | ⟨hab, hlt⟩
    · exact List.cons_lt_cons_iff.mpr (Or.inl (UInt8.lt_iff_toNat_lt.mpr hab))
    · exact List.cons_lt_cons_iff.mpr (Or.inr ⟨UInt8.toNat_inj.mp hab, ih (Nat.succ.inj hlen) hlt⟩)

end DurablePg.Lib
