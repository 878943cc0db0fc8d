import DurablePg.Lib.Hex
import Mathlib.Data.Vector.Basic

/-!
`newUUID`: UUIDs of version 7, whose first 48 bits are the time in milliseconds.
-/

namespace DurablePg

open Lib

/-! ### The function -/

/-- The sixteen bytes: time, version and variant over random ones. -/
def uuidBytes (random : Vector UInt8 16) (ms : UInt64) : Vector UInt8 16 :=
  let b := random
  let b := ((b.set 0 (ms >>> 40).toUInt8).set 1 (ms >>> 32).toUInt8).set 2 (ms >>> 24).toUInt8
  let b := ((b.set 3 (ms >>> 16).toUInt8).set 4 (ms >>> 8).toUInt8).set 5 ms.toUInt8
  let b := b.set 6 ((b[6] &&& 0x0f) ||| 0x70)
  b.set 8 ((b[8] &&& 0x3f) ||| 0x80)

/-- The bytes `b[i:j]`. -/
def slice (b : Vector UInt8 16) (i j : ℕ) : List UInt8 := (b.toList.take j).drop i

/-- The 36 characters: each slice of `out` starts where the one before it ends. -/
def uuidText (b : Vector UInt8 16) : List Char :=
  hexEncode (slice b 0 4) ++ '-' :: hexEncode (slice b 4 6) ++ '-' :: hexEncode (slice b 6 8) ++
    '-' :: hexEncode (slice b 8 10) ++ '-' :: hexEncode (slice b 10 16)

/-- `newUUID`, from what `rand.Read` gives and the clock; the error is the text of the panic. -/
def newUUID (read : Except String (Vector UInt8 16)) (ms : UInt64) : Except String String :=
  match read with
  | .error err => .error ("durablepg: read random bytes: " ++ err)
  | .ok random => .ok (String.ofList (uuidText (uuidBytes random ms)))

/-! ### What a UUID is -/

/-- A canonical text: 36 characters, dashes at four places and lower-case digits at the others. -/
def CanonicalUuid (s : String) : Prop :=
  s.toList.length = 36 ∧ ∀ p ∈ s.toList.zipIdx,
    if p.2 ∈ [8, 13, 18, 23] then p.1 = '-' else isHexDigit p.1 = true

instance (s : String) : Decidable (CanonicalUuid s) := inferInstanceAs (Decidable (_ ∧ _))

/-- The 128-bit number a text spells. -/
def uuidValue (s : String) : ℕ := beValue 16 ((s.toList.filter (· ≠ '-')).map hexValue)

/-! ### The bytes -/

section Bytes

variable (random : Vector UInt8 16) (ms : UInt64)

/-- The first six bytes. -/
def timeBytes : List UInt8 :=
  [(ms >>> 40).toUInt8, (ms >>> 32).toUInt8, (ms >>> 24).toUInt8, (ms >>> 16).toUInt8,
    (ms >>> 8).toUInt8, ms.toUInt8]

/-- The other ten. -/
def stampBytes : List UInt8 :=
  [(random[6] &&& 0x0f) ||| 0x70, random[7], (random[8] &&& 0x3f) ||| 0x80, random[9], random[10],
    random[11], random[12], random[13], random[14], random[15]]

lemma uuidBytes_toList : (uuidBytes random ms).toList = timeBytes ms ++ stampBytes random := by
  obtain ⟨⟨l⟩, hl⟩ := random
  match l, hl with
  | [_, _, _, _, _, _, _, _, _, _, _, _, _, _, _, _], _ => rfl

lemma timeBytes_value : beValue 256 ((timeBytes ms).map UInt8.toNat) = ms.toNat % 2 ^ 48 := by
  simp only [timeBytes, List.map_cons, List.map_nil, beValue_cons, List.length_cons,
    List.length_nil, beValue_nil, UInt64.toNat_toUInt8, UInt64.toNat_shiftRight,
    UInt64.reduceToNat, Nat.shiftRight_eq_div_pow]
  norm_num
  omega

lemma version_nibble (b : UInt8) : ((b &&& 0x0f) ||| 0x70).toNat / 16 = 7 := by
  have hall : ∀ n : Fin 256, ((UInt8.ofFin n &&& 0x0f) ||| 0x70).toNat / 16 = 7 := by
    decide +kernel
  exact hall b.toFin

lemma variant_bits (b : UInt8) : ((b &&& 0x3f) ||| 0x80).toNat / 64 = 2 := by
  have hall : ∀ n : Fin 256, ((UInt8.ofFin n &&& 0x3f) ||| 0x80).toNat / 64 = 2 := by
    decide +kernel
  exact hall b.toFin

/-- The bytes after the time carry the version and the variant at their places. -/
lemma stampBytes_value :
    beValue 256 ((stampBytes random).map UInt8.toNat) / 2 ^ 76 = 7 ∧
      beValue 256 ((stampBytes random).map UInt8.toNat) / 2 ^ 62 % 4 = 2 := by
  have hver := version_nibble random[6]
  have hvar := variant_bits random[8]
  have h7 := random[7].toNat_lt
  have h8 := ((random[8] &&& 0x3f) ||| 0x80).toNat_lt
  have hrest := beValue_bytes_lt [random[9], random[10], random[11], random[12], random[13],
    random[14], random[15]]
  simp only [List.length_cons, List.length_nil] at hrest
  unfold stampBytes
  rw [List.map_cons, beValue_cons, List.map_cons, beValue_cons, List.map_cons, beValue_cons]
  simp only [List.length_map, List.length_cons, List.length_nil]
  omega

end Bytes

/-! ### The text -/

section Text

variable (b : Vector UInt8 16)

lemma slice_append : slice b 0 4 ++ slice b 4 6 ++ slice b 6 8 ++ slice b 8 10 ++ slice b 10 16 =
    b.toList := by
  obtain ⟨⟨l⟩, hl⟩ := b
  match l, hl with
  | [_, _, _, _, _, _, _, _, _, _, _, _, _, _, _, _], _ => rfl

lemma length_slice {i j : ℕ} (hj : j ≤ 16) : (slice b i j).length = j - i := by
  simp [slice, hj]

lemma mem_zipIdx_hexEncode {bs : List UInt8} {k : ℕ} {p : Char × ℕ}
    (h : p ∈ (hexEncode bs).zipIdx k) :
    isHexDigit p.1 = true ∧ k ≤ p.2 ∧ p.2 < k + 2 * bs.length := by
  obtain ⟨hle, hlt, hget⟩ := List.mem_zipIdx h
  have hmem : p.1 ∈ hexEncode bs := by
    rw [hget]
    exact List.getElem_mem _
  rw [length_hexEncode] at hlt
  exact ⟨isHexDigit_of_mem hmem, hle, hlt⟩

/-- **The text of any sixteen bytes is canonical.** -/
lemma uuidText_canonical : CanonicalUuid (String.ofList (uuidText b)) := by
  have h04 := length_slice b (i := 0) (j := 4) (by decide)
  have h46 := length_slice b (i := 4) (j := 6) (by decide)
  have h68 := length_slice b (i := 6) (j := 8) (by decide)
  have h810 := length_slice b (i := 8) (j := 10) (by decide)
  have h1016 := length_slice b (i := 10) (j := 16) (by decide)
  unfold CanonicalUuid uuidText
  rw [String.toList_ofList]
  constructor
  · simp only [List.length_append, List.length_cons, length_hexEncode, h04, h46, h68, h810, h1016]
  intro p hp
  simp only [List.zipIdx_append, List.zipIdx_cons, List.mem_append, List.mem_cons,
    List.length_append, List.length_cons, length_hexEncode, h04, h46, h68, h810] at hp
  -- the four dashes, and the digits of the five slices
  rcases hp with (((hp | rfl | hp) | rfl | hp) | rfl | hp) | rfl | hp
  all_goals first
    | rfl
    | obtain ⟨hdigit, hle, hlt⟩ := mem_zipIdx_hexEncode hp
      rw [if_neg, hdigit]
      simp only [List.mem_cons, List.not_mem_nil, or_false]
      omega

lemma filter_hexEncode (bs : List UInt8) : (hexEncode bs).filter (· ≠ '-') = hexEncode bs := by
  refine List.filter_eq_self.mpr fun c hc => ?_
  have hdigit := isHexDigit_of_mem hc
  have hdash : isHexDigit '-' = false := by decide
  simp only [ne_eq, decide_not, Bool.not_eq_true', decide_eq_false_iff_not]
  rintro rfl
  rw [hdash] at hdigit
  cases hdigit

lemma uuidValue_uuidText :
    uuidValue (String.ofList (uuidText b)) = beValue 256 (b.toList.map UInt8.toNat) := by
  have hfilter : (uuidText b).filter (· ≠ '-') = hexEncode b.toList := by
    have hdash : ∀ l : List Char, ('-' :: l).filter (· ≠ '-') = l.filter (· ≠ '-') :=
      fun l => List.filter_cons_of_neg (by decide)
    unfold uuidText
    simp only [List.filter_append, hdash, filter_hexEncode]
    rw [← slice_append b]
    simp only [hexEncode_append]
  unfold uuidValue
  rw [String.toList_ofList, hfilter, beValue_hexEncode]

end Text

lemma uuidText_lt {b c : Vector UInt8 16}
    (h : slice b 0 4 ++ slice b 4 6 < slice c 0 4 ++ slice c 4 6) : uuidText b < uuidText c := by
  have hlen : ∀ i j, j ≤ 16 →
      (hexEncode (slice b i j)).length = (hexEncode (slice c i j)).length := by
    intro i j hj
    rw [length_hexEncode, length_hexEncode, length_slice b hj, length_slice c hj]
  unfold uuidText
  simp only [List.append_assoc, List.cons_append]
  rcases append_lt_cases (by rw [length_slice b, length_slice c] <;> decide) h with hlt | ⟨heq, hlt⟩
  · exact append_lt_append (hlen 0 4 (by decide)) (hexEncode_lt hlt) _ _
  · rw [heq]
    refine append_left_lt _ (List.cons_lt_cons_iff.mpr (Or.inr ⟨rfl, ?_⟩))
    exact append_lt_append (hlen 4 6 (by decide)) (hexEncode_lt hlt) _ _

/-! ### Identifiers of a call -/

section Call

variable (random : Vector UInt8 16) (ms : UInt64)

lemma uuidValue_newUUID :
    uuidValue (String.ofList (uuidText (uuidBytes random ms))) =
      ms.toNat % 2 ^ 48 * 2 ^ 80 + beValue 256 ((stampBytes random).map UInt8.toNat) := by
  have hlen : ((stampBytes random).map UInt8.toNat).length = 10 := rfl
  rw [uuidValue_uuidText, uuidBytes_toList, List.map_append, beValue_append, timeBytes_value, hlen]
  norm_num

lemma slice_uuidBytes :
    slice (uuidBytes random ms) 0 4 ++ slice (uuidBytes random ms) 4 6 = timeBytes ms := by
  unfold slice
  rw [uuidBytes_toList]
  rfl

end Call

/-- **`newUUID` encodes the time and orders by it**: whatever the random bytes, the result is
canonical, of version 7 and of the variant whose bits are `10`, and its first 48 bits are the
time; a later time gives a larger text and a larger number, whatever the random bytes of the two
calls. -/
theorem newUUID_timeOrdered :
    (∀ (random : Vector UInt8 16) (ms : UInt64), ms.toNat < 2 ^ 48 →
      ∃ s, newUUID (.ok random) ms = .ok s ∧ CanonicalUuid s ∧ uuidValue s < 2 ^ 128 ∧
        uuidValue s / 2 ^ 76 % 2 ^ 4 = 7 ∧ uuidValue s / 2 ^ 62 % 2 ^ 2 = 0b10 ∧
        uuidValue s / 2 ^ 80 = ms.toNat) ∧
    ∀ (random₁ random₂ : Vector UInt8 16) (ms₁ ms₂ : UInt64), ms₁ < ms₂ → ms₂.toNat < 2 ^ 48 →
      ∃ s₁ s₂, newUUID (.ok random₁) ms₁ = .ok s₁ ∧ newUUID (.ok random₂) ms₂ = .ok s₂ ∧
        s₁ < s₂ ∧ uuidValue s₁ < uuidValue s₂ := by
  constructor
  · intro random ms hms
    refine ⟨_, rfl, uuidText_canonical _, ?_⟩
    obtain ⟨hver, hvar⟩ := stampBytes_value random
    have hlt := beValue_bytes_lt (stampBytes random)
    have hlen : (stampBytes random).length = 10 := rfl
    rw [uuidValue_newUUID, Nat.mod_eq_of_lt hms]
    rw [hlen] at hlt
    omega
  · intro random₁ random₂ ms₁ ms₂ hlt hms
    have hlt : ms₁.toNat < ms₂.toNat := UInt64.lt_iff_toNat_lt.mp hlt
    refine ⟨_, _, rfl, rfl, ?_, ?_⟩
    · rw [String.lt_iff, String.toList_ofList, String.toList_ofList]
      refine uuidText_lt ?_
      rw [slice_uuidBytes, slice_uuidBytes]
      refine bytes_lt rfl ?_
      rw [timeBytes_value, timeBytes_value, Nat.mod_eq_of_lt hms, Nat.mod_eq_of_lt (hlt.trans hms)]
      exact hlt
    · have hbound := beValue_bytes_lt (stampBytes random₁)
      have hlen : (stampBytes random₁).length = 10 := rfl
      rw [uuidValue_newUUID, uuidValue_newUUID, Nat.mod_eq_of_lt hms,
        Nat.mod_eq_of_lt (hlt.trans hms)]
      rw [hlen] at hbound
      omega

/-- The largest time of a byte against the next one, with random bytes that pull the other way. -/
theorem newUUID_timeOrdered_carry :
    (∃ s, newUUID (.ok (Vector.replicate 16 255)) 0x0190_0000_00ff = .ok s ∧ CanonicalUuid s ∧
      uuidValue s / 2 ^ 80 = 0x0190_0000_00ff) ∧
    ∃ s₁ s₂, newUUID (.ok (Vector.replicate 16 255)) 0x0190_0000_00ff = .ok s₁ ∧
      newUUID (.ok (Vector.replicate 16 0)) 0x0190_0000_0100 = .ok s₂ ∧
      s₁ < s₂ ∧ uuidValue s₁ < uuidValue s₂ := by
  obtain ⟨hone, htwo⟩ := newUUID_timeOrdered
  refine ⟨?_, htwo _ _ _ _ (by decide) (by decide)⟩
  obtain ⟨s, hs, hcanon, -, -, -, htime⟩ :=
    hone (Vector.replicate 16 255) 0x0190_0000_00ff (by decide)
  exact ⟨s, hs, hcanon, htime⟩

example : newUUID (.ok (Vector.replicate 16 255)) 0x0190_0000_00ff =
    .ok "01900000-00ff-7fff-bfff-ffffffffffff" := by decide +kernel

end DurablePg
