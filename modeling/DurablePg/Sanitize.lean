import DurablePg.Engine
import DurablePg.Lib.Utf8
import Mathlib.Data.List.Destutter
import Mathlib.Order.Bounds.Basic

/-!
`sanitizeError`: what is stored of an error is text.

The message falls into characters and stray bytes. Each run of stray bytes becomes one
replacement character, and so does each NUL; of what is too long, whole characters are cut off
at the end.
-/

namespace DurablePg

open Lib.Utf8

/-! ### Runes at the head -/

lemma two_of_getElem? {rest : Bytes} {b c : UInt8} (hb : rest[0]? = some b)
    (hc : rest[1]? = some c) : ∃ r, rest = b :: c :: r := by
  rcases rest with _ | ⟨x, _ | ⟨y, r⟩⟩
  · cases hb
  · cases hc
  · cases hb; cases hc
    exact ⟨r, rfl⟩

lemma three_of_getElem? {rest : Bytes} {b c d : UInt8} (hb : rest[0]? = some b)
    (hc : rest[1]? = some c) (hd : rest[2]? = some d) : ∃ r, rest = b :: c :: d :: r := by
  obtain ⟨r, rfl⟩ := two_of_getElem? hb hc
  rcases r with _ | ⟨x, r⟩
  · cases hd
  · cases hd
    exact ⟨r, rfl⟩

section Width

variable {a b : UInt8} {rest : Bytes}

lemma wellFormed_three (hb : rest[0]? = some b) (ha : 0xE0 ≤ a.toNat ∧ a.toNat ≤ 0xEF)
    (htail : IsTail b) (hshort : a.toNat = 0xE0 → 0xA0 ≤ b.toNat)
    (hsurrogate : a.toNat = 0xED → b.toNat ≤ 0x9F)
    (hmore : ∀ j < 1, ∃ c, rest[j + 1]? = some c ∧ 128 ≤ c.toNat ∧ c.toNat ≤ 191) :
    ∃ l rest', WellFormed l ∧ a :: rest = l ++ rest' ∧ 3 = l.length := by
  obtain ⟨c, hc, hctail⟩ := hmore 0 (by decide)
  obtain ⟨r, rfl⟩ := two_of_getElem? hb hc
  exact ⟨[a, b, c], r, .three ha htail hshort hsurrogate hctail, rfl, rfl⟩

lemma wellFormed_four (hb : rest[0]? = some b) (ha : 0xF0 ≤ a.toNat ∧ a.toNat ≤ 0xF4)
    (htail : IsTail b) (hshort : a.toNat = 0xF0 → 0x90 ≤ b.toNat)
    (hlast : a.toNat = 0xF4 → b.toNat ≤ 0x8F)
    (hmore : ∀ j < 2, ∃ c, rest[j + 1]? = some c ∧ 128 ≤ c.toNat ∧ c.toNat ≤ 191) :
    ∃ l rest', WellFormed l ∧ a :: rest = l ++ rest' ∧ 4 = l.length := by
  obtain ⟨c, hc, hctail⟩ := hmore 0 (by decide)
  obtain ⟨d, hd, hdtail⟩ := hmore 1 (by decide)
  obtain ⟨r, rfl⟩ := three_of_getElem? hb hc hd
  exact ⟨[a, b, c, d], r, .four ha htail hshort hlast hctail hdtail, rfl, rfl⟩

end Width

lemma wellFormed_of_runeWidth {bs : Bytes} {w : ℕ} (h : runeWidth bs = some w) :
    ∃ l rest, WellFormed l ∧ bs = l ++ rest ∧ w = l.length := by
  rcases bs with _ | ⟨a, rest⟩
  · cases h
  unfold runeWidth at h
  simp only [Bool.and_eq_true, Bool.or_eq_true, decide_eq_true_eq, List.all_eq_true,
    List.mem_range, Option.any_eq_true] at h
  -- one branch after the other, as the function tries them
  rcases ite_eq_iff.mp h with ⟨ha, hw⟩ | ⟨-, h₁⟩
  · cases hw
    exact ⟨[a], rest, .one (by omega), rfl, rfl⟩
  rcases ite_eq_iff.mp h₁ with ⟨⟨ha, b, hb, htail⟩, hw⟩ | ⟨-, h₂⟩
  · rcases rest with _ | ⟨x, r⟩
    · cases hb
    cases hb; cases hw
    exact ⟨[a, b], r, .two ha htail, rfl, rfl⟩
  rcases ite_eq_iff.mp h₂ with ⟨⟨⟨ha, b, hb, hrange⟩, hmore⟩, hw⟩ | ⟨-, h₃⟩
  · cases hw
    exact wellFormed_three hb (by omega) ⟨by omega, hrange.2⟩ (by omega) (by omega) hmore
  rcases ite_eq_iff.mp h₃ with ⟨⟨⟨ha, b, hb, htail⟩, hmore⟩, hw⟩ | ⟨-, h₄⟩
  · cases hw
    exact wellFormed_three hb (by omega) htail (by omega) (by omega) hmore
  rcases ite_eq_iff.mp h₄ with ⟨⟨⟨ha, b, hb, hrange⟩, hmore⟩, hw⟩ | ⟨-, h₅⟩
  · cases hw
    exact wellFormed_three hb (by omega) ⟨hrange.1, by omega⟩ (by omega) (by omega) hmore
  rcases ite_eq_iff.mp h₅ with ⟨⟨⟨ha, b, hb, hrange⟩, hmore⟩, hw⟩ | ⟨-, h₆⟩
  · cases hw
    exact wellFormed_four hb (by omega) ⟨by omega, hrange.2⟩ (by omega) (by omega) hmore
  rcases ite_eq_iff.mp h₆ with ⟨⟨⟨ha, b, hb, htail⟩, hmore⟩, hw⟩ | ⟨-, h₇⟩
  · cases hw
    exact wellFormed_four hb (by omega) htail (by omega) (by omega) hmore
  rcases ite_eq_iff.mp h₇ with ⟨⟨⟨ha, b, hb, hrange⟩, hmore⟩, hw⟩ | ⟨-, h₈⟩
  · cases hw
    exact wellFormed_four hb (by omega) ⟨hrange.1, by omega⟩ (by omega) (by omega) hmore
  · cases h₈

lemma runeWidth_of_wellFormed {l : Bytes} (hl : WellFormed l) (rest : Bytes) :
    runeWidth (l ++ rest) = some l.length := by
  have hone : List.range 1 = [0] := rfl
  have htwo : List.range 2 = [0, 1] := rfl
  cases hl with
  | one ha =>
    unfold runeWidth
    simp only [List.cons_append, List.nil_append]
    rw [if_pos (by omega)]
    rfl
  | two ha hb =>
    unfold IsTail at hb
    simp only [runeWidth, List.cons_append, List.nil_append, List.getElem?_cons_zero,
      Option.any_some, Bool.and_eq_true, decide_eq_true_eq]
    rw [if_neg (by omega), if_pos ⟨ha, hb⟩]
    rfl
  | @three a b c ha hb hshort hsurrogate hc =>
    unfold IsTail at hb hc
    simp only [runeWidth, List.cons_append, List.nil_append, List.getElem?_cons_zero,
      List.getElem?_cons_succ, Option.any_some, hone, htwo, List.all_cons, List.all_nil,
      Bool.and_eq_true, Bool.or_eq_true, decide_eq_true_eq, and_true]
    rw [if_neg (by omega), if_neg (by omega)]
    by_cases hE0 : a.toNat = 0xE0
    · rw [if_pos ⟨⟨hE0, hshort hE0, hb.2⟩, hc⟩]
      rfl
    rw [if_neg (by omega)]
    by_cases hED : a.toNat = 0xED
    · rw [if_neg (by omega), if_pos ⟨⟨hED, hb.1, hsurrogate hED⟩, hc⟩]
      rfl
    · rw [if_pos ⟨⟨by omega, hb⟩, hc⟩]
      rfl
  | @four a b c d ha hb hshort hlast hc hd =>
    unfold IsTail at hb hc hd
    simp only [runeWidth, List.cons_append, List.nil_append, List.getElem?_cons_zero,
      List.getElem?_cons_succ, Option.any_some, hone, htwo, List.all_cons, List.all_nil,
      Bool.and_eq_true, Bool.or_eq_true, decide_eq_true_eq, and_true]
    rw [if_neg (by omega), if_neg (by omega), if_neg (by omega), if_neg (by omega),
      if_neg (by omega)]
    by_cases hF0 : a.toNat = 0xF0
    · rw [if_pos ⟨⟨hF0, hshort hF0, hb.2⟩, hc, hd⟩]
      rfl
    rw [if_neg (by omega)]
    by_cases hF4 : a.toNat = 0xF4
    · rw [if_neg (by omega), if_pos ⟨⟨hF4, hb.1, hlast hF4⟩, hc, hd⟩]
      rfl
    · rw [if_pos ⟨⟨by omega, hb⟩, hc, hd⟩]
      rfl

lemma runeWidth_encode (c : Char) (rest : Bytes) :
    runeWidth (encode c ++ rest) = some (encode c).length :=
  runeWidth_of_wellFormed (encode_spec c).1 rest

lemma runeWidth_eq_none {bs : Bytes} (h : ∀ c, ¬ encode c <+: bs) : runeWidth bs = none := by
  rcases hw : runeWidth bs with _ | w
  · rfl
  · obtain ⟨l, rest, hl, rfl, -⟩ := wellFormed_of_runeWidth hw
    obtain ⟨c, rfl⟩ := hl.exists_char
    exact absurd (List.prefix_append _ _) (h c)

/-! ### The message after replacement -/

/-- The replacement character. -/
def fffd : Char := Char.ofNat 0xFFFD

/-- What stands for a piece of the message. -/
def pieceChar : Piece → Char
  | .rune c => if c = Char.ofNat 0 then fffd else c
  | .invalid _ => fffd

lemma pieceChar_rune (c : Char) :
    pieceChar (.rune c) = if c = Char.ofNat 0 then fffd else c := rfl

/-- The message with each maximal run of invalid bytes, and each NUL, replaced: of pieces that
follow each other, an invalid one after an invalid one is left out. -/
def cleaned (ps : List Piece) : List Char :=
  (ps.destutter fun p q => ¬ (p.IsInvalid ∧ q.IsInvalid)).map pieceChar

/-- `strings.ReplaceAll` of NUL by the replacement character. -/
def replaceNul (msg : Bytes) : Bytes := msg.flatMap fun b => if b = 0 then replacement else [b]

lemma encode_fffd : encode fffd = replacement := by decide +kernel

lemma encode_nul : encode (Char.ofNat 0) = [0] := by decide +kernel

lemma zero_mem_encode {c : Char} (h : (0 : UInt8) ∈ encode c) : c = Char.ofNat 0 := by
  obtain ⟨a, l, hc, hwf⟩ := encode_cons c
  obtain ⟨-, -, htail⟩ := hwf.length_eq
  have hnot : ¬ IsTail 0 := by unfold IsTail; decide
  rw [hc] at h
  rcases List.mem_cons.mp h with rfl | h
  · have hlen := hwf.length_eq.1
    obtain rfl : l = [] := List.eq_nil_of_length_eq_zero (by simpa using hlen)
    exact encode_injective (hc.trans encode_nul.symm)
  · exact absurd (htail 0 h) hnot

lemma replaceNul_encode (c : Char) : replaceNul (encode c) = encode (pieceChar (.rune c)) := by
  rw [pieceChar_rune]
  split
  · rename_i hc
    rw [hc, encode_nul, encode_fffd]
    rfl
  · rename_i hc
    unfold replaceNul
    have hkeep : ∀ b ∈ encode c, (if b = 0 then replacement else [b]) = [b] := by
      intro b hb
      refine if_neg ?_
      rintro rfl
      exact hc (zero_mem_encode hb)
    rw [List.flatMap_congr hkeep]
    exact List.flatMap_singleton' _

lemma replaceNul_replacement : replaceNul replacement = encode fffd := by decide +kernel

lemma replaceNul_append (l m : Bytes) : replaceNul (l ++ m) = replaceNul l ++ replaceNul m :=
  List.flatMap_append

lemma toValidUTF8_pending (l rest : Bytes) (invalid : Bool) (hl : l ≠ [] ∨ invalid = false) :
    toValidUTF8 l.length invalid (l ++ rest) = l ++ toValidUTF8 0 false rest := by
  induction l generalizing invalid with
  | nil =>
    rcases hl with h | rfl
    · exact absurd rfl h
    · rfl
  | cons b l ih =>
    rw [List.length_cons, List.cons_append, toValidUTF8, if_pos (Nat.succ_pos _),
      Nat.add_sub_cancel, ih false (Or.inr rfl)]
    rfl

lemma toValidUTF8_encode (c : Char) (rest : Bytes) (invalid : Bool) :
    toValidUTF8 0 invalid (encode c ++ rest) = encode c ++ toValidUTF8 0 false rest := by
  have hw := runeWidth_encode c rest
  obtain ⟨a, l, hc, -⟩ := encode_cons c
  rw [hc] at hw ⊢
  rw [List.cons_append] at hw ⊢
  rw [toValidUTF8, if_neg (lt_irrefl 0), hw]
  simp only [List.length_cons, Nat.add_sub_cancel]
  rw [toValidUTF8_pending l rest false (Or.inr rfl)]
  rfl

lemma replaced_after {msg : Bytes} {ps : List Piece} (h : Decodes msg ps) (p : Piece) :
    encode (pieceChar p) ++ replaceNul (toValidUTF8 0 p.IsInvalid msg) =
      bytes ((ps.destutter' (fun p q => ¬ (p.IsInvalid ∧ q.IsInvalid)) p).map pieceChar) := by
  induction h generalizing p with
  | nil => rfl
  | @rune c bs ps h ih =>
    rw [toValidUTF8_encode, replaceNul_append, replaceNul_encode, List.destutter'_cons,
      if_pos (by simp [Piece.IsInvalid]), List.map_cons, bytes_cons, ← ih (.rune c)]
    rfl
  | @invalid b bs ps hb h ih =>
    rw [toValidUTF8, if_neg (lt_irrefl 0), runeWidth_eq_none hb, List.destutter'_cons]
    by_cases hp : p.IsInvalid
    · rw [if_neg (not_not_intro ⟨hp, trivial⟩), ← ih p]
      simp [hp]
    · rw [if_pos fun h => hp h.1, List.map_cons, bytes_cons, ← ih (.invalid b)]
      simp only [hp, decide_false, Bool.false_eq_true, if_false, replaceNul_append,
        replaceNul_replacement]
      rfl

/-- **The message after replacement**, as `sanitizeError` computes it. -/
lemma replaced_eq {msg : Bytes} {ps : List Piece} (h : Decodes msg ps) :
    replaceNul (toValidUTF8 0 false msg) = bytes (cleaned ps) := by
  unfold cleaned
  cases h with
  | nil => rfl
  | @rune c bs ps h =>
    rw [toValidUTF8_encode, replaceNul_append, replaceNul_encode, List.destutter_cons',
      ← replaced_after h]
    rfl
  | @invalid b bs ps hb h =>
    rw [toValidUTF8, if_neg (lt_irrefl 0), runeWidth_eq_none hb, List.destutter_cons',
      ← replaced_after h, if_neg (by decide), replaceNul_append, replaceNul_replacement]
    rfl

lemma nul_notMem_cleaned (ps : List Piece) : Char.ofNat 0 ∉ cleaned ps := by
  intro h
  obtain ⟨p, -, hp⟩ := List.mem_map.mp h
  have hne : fffd ≠ Char.ofNat 0 := by decide +kernel
  cases p with
  | invalid b => exact hne hp
  | rune c =>
    rw [pieceChar_rune] at hp
    split at hp
    · exact hne hp
    · rename_i hc
      exact hc hp

lemma cleaned_runes {cs : List Char} (h : Char.ofNat 0 ∉ cs) :
    cleaned (cs.map .rune) = cs := by
  unfold cleaned
  have hchain : List.IsChain (fun p q : Piece => ¬ (p.IsInvalid ∧ q.IsInvalid)) (cs.map .rune) :=
    (List.pairwise_map.mpr (List.pairwise_of_forall fun _ _ h => h.1)).isChain
  rw [List.destutter_of_isChain _ _ hchain, List.map_map]
  refine (List.map_congr_left fun c hc => ?_).trans (List.map_id cs)
  refine if_neg ?_
  rintro rfl
  exact h hc

/-! ### The cut -/

lemma runeStart_iff (b : UInt8) : runeStart b = true ↔ ¬ IsTail b := by
  unfold runeStart IsTail
  rw [decide_eq_true_eq]
  omega

lemma runeBoundary_isGreatest {cs : List Char} {n : ℕ} (hn : n < (bytes cs).length) :
    IsGreatest {i | Boundary cs i ∧ i ≤ n} (runeBoundary (bytes cs) n) := by
  induction n with
  | zero => exact ⟨⟨boundary_zero _, le_rfl⟩, fun i hi => hi.2⟩
  | succ n ih =>
    have hget : (bytes cs)[n + 1]? = some ((bytes cs).getD (n + 1) 0) := by
      rw [List.getD_eq_getElem?_getD, List.getElem?_eq_getElem hn]
      rfl
    rw [runeBoundary]
    split
    · rename_i hstart
      exact ⟨⟨(not_isTail_iff hget).mp ((runeStart_iff _).mp hstart), le_rfl⟩, fun i hi => hi.2⟩
    · -- the byte is inside a character
      rename_i hstart
      obtain ⟨hmem, hmax⟩ := ih (by omega)
      refine ⟨⟨hmem.1, Nat.le_succ_of_le hmem.2⟩, fun i hi => hmax ⟨hi.1, ?_⟩⟩
      rcases Nat.lt_or_ge i (n + 1) with hlt | hge
      · omega
      · obtain rfl : i = n + 1 := le_antisymm hi.2 hge
        exact absurd ((runeStart_iff _).mpr ((not_isTail_iff hget).mpr hi.1)) hstart

/-! ### `sanitizeError` with its index checks -/

/-- The loop, where reading past the end is a panic. -/
def runeBoundaryChecked (msg : Bytes) : ℕ → Option ℕ
  | 0 => some 0
  | last + 1 => do
    let b ← msg[last + 1]?
    if runeStart b then some (last + 1) else runeBoundaryChecked msg last

/-- `sanitizeError`, where an index out of range is a panic. -/
def sanitizeErrorChecked (msg : Bytes) : Option Bytes :=
  let msg := (toValidUTF8 0 false msg).flatMap fun b => if b = 0 then replacement else [b]
  if msg.length ≤ maxErrorLength then some msg
  else do
    let last ← runeBoundaryChecked msg maxErrorLength
    if last ≤ msg.length then some (msg.take last) else none

lemma runeBoundaryChecked_eq {msg : Bytes} {n : ℕ} (hn : n < msg.length) :
    runeBoundaryChecked msg n = some (runeBoundary msg n) := by
  induction n with
  | zero => rfl
  | succ n ih =>
    rw [runeBoundaryChecked, runeBoundary, List.getD_eq_getElem?_getD,
      List.getElem?_eq_getElem hn, Option.bind_eq_bind, Option.bind_some, Option.getD_some,
      ih (by omega)]
    split <;> rfl

lemma runeBoundary_le (msg : Bytes) (n : ℕ) : runeBoundary msg n ≤ n := by
  induction n with
  | zero => exact le_rfl
  | succ n ih =>
    rw [runeBoundary]
    split
    · exact le_rfl
    · omega

lemma sanitizeErrorChecked_eq (msg : Bytes) :
    sanitizeErrorChecked msg = some (sanitizeError msg) := by
  unfold sanitizeErrorChecked sanitizeError
  simp only
  split
  · rfl
  · rename_i hlen
    have hle := runeBoundary_le
      ((toValidUTF8 0 false msg).flatMap fun b => if b = 0 then replacement else [b]) maxErrorLength
    rw [runeBoundaryChecked_eq (by omega), Option.bind_eq_bind, Option.bind_some,
      if_pos (by omega)]

/-! ### The result -/

lemma sanitizeError_eq {msg : Bytes} {ps : List Piece} (h : Decodes msg ps) :
    sanitizeError msg = if (bytes (cleaned ps)).length ≤ maxErrorLength then bytes (cleaned ps)
      else (bytes (cleaned ps)).take (runeBoundary (bytes (cleaned ps)) maxErrorLength) := by
  rw [← replaced_eq h]
  rfl

lemma sanitizeError_text {msg : Bytes} {ps : List Piece} (h : Decodes msg ps) :
    ∃ k, sanitizeError msg = bytes ((cleaned ps).take k) ∧
      (sanitizeError msg).length ≤ maxErrorLength := by
  rw [sanitizeError_eq h]
  split
  · rename_i hlen
    exact ⟨(cleaned ps).length, by rw [List.take_length], hlen⟩
  · rename_i hlen
    have hlong : maxErrorLength < (bytes (cleaned ps)).length := by omega
    obtain ⟨⟨hb, hle⟩, -⟩ := runeBoundary_isGreatest hlong
    obtain ⟨k, hk⟩ := hb.take
    refine ⟨k, hk, ?_⟩
    rw [List.length_take]
    omega

lemma sanitizeError_bytes {cs : List Char} (hnul : Char.ofNat 0 ∉ cs)
    (hlen : (bytes cs).length ≤ maxErrorLength) : sanitizeError (bytes cs) = bytes cs := by
  rw [sanitizeError_eq (decodes_bytes cs), cleaned_runes hnul, if_pos hlen]

lemma zero_notMem_bytes {cs : List Char} (h : Char.ofNat 0 ∉ cs) : (0 : UInt8) ∉ bytes cs := by
  intro hmem
  obtain ⟨c, hc, hzero⟩ := List.mem_flatMap.mp hmem
  rw [zero_mem_encode hzero] at hc
  exact h hc

/-- **`sanitizeError` yields storable text**: a message falls into characters and invalid bytes
in one way; with its runs of invalid bytes and its NULs replaced, it is returned whole if it
fits, and else up to the last boundary between characters that does. The result is valid UTF-8
without NUL, no index is out of range on the way, and sanitizing it again changes nothing. -/
theorem sanitizeError_storable (msg : Bytes) :
    (∃! ps, Decodes msg ps) ∧
    ∀ ps, Decodes msg ps →
      (∃ s : String, sanitizeError msg = utf8 s) ∧
      0 ∉ sanitizeError msg ∧
      (sanitizeError msg).length ≤ 4000 ∧
      sanitizeErrorChecked msg = some (sanitizeError msg) ∧
      ((bytes (cleaned ps)).length ≤ 4000 → sanitizeError msg = bytes (cleaned ps)) ∧
      (4000 < (bytes (cleaned ps)).length →
        sanitizeError msg <+: bytes (cleaned ps) ∧
        IsGreatest {i | Boundary (cleaned ps) i ∧ i ≤ 4000} (sanitizeError msg).length ∧
        3997 ≤ (sanitizeError msg).length) ∧
      sanitizeError (sanitizeError msg) = sanitizeError msg := by
  obtain ⟨ps₀, hps₀⟩ := decodes_exists msg
  refine ⟨⟨ps₀, hps₀, fun qs hqs => hps₀.unique hqs⟩, fun ps hps => ?_⟩
  obtain ⟨k, htext, hlen⟩ := sanitizeError_text hps
  have hnul : Char.ofNat 0 ∉ (cleaned ps).take k :=
    fun h => nul_notMem_cleaned ps (List.mem_of_mem_take h)
  refine ⟨⟨String.ofList ((cleaned ps).take k), ?_⟩, ?_, hlen, sanitizeErrorChecked_eq msg,
    fun hshort => ?_, fun hlong => ?_, ?_⟩
  · rw [htext, utf8, String.toList_ofList]
    rfl
  · rw [htext]
    exact zero_notMem_bytes hnul
  · rw [sanitizeError_eq hps]
    exact if_pos hshort
  · have hgreatest := runeBoundary_isGreatest hlong
    have heq := sanitizeError_eq hps
    rw [if_neg (by unfold maxErrorLength; omega)] at heq
    have hcut : (sanitizeError msg).length = runeBoundary (bytes (cleaned ps)) 4000 := by
      have hle := runeBoundary_le (bytes (cleaned ps)) 4000
      rw [heq, List.length_take]
      exact min_eq_left (by unfold maxErrorLength; omega)
    rw [hcut]
    refine ⟨heq ▸ List.take_prefix _ _, hgreatest, ?_⟩
    obtain ⟨i, hi, hin, hni⟩ := exists_boundary_near hlong
    have := hgreatest.2 ⟨hi, hin⟩
    omega
  · rw [htext]
    exact sanitizeError_bytes hnul (htext ▸ hlen)

/-- Characters of three bytes, two bytes too many. -/
theorem sanitizeError_storable_cut : ∃ msg ps, Decodes msg ps ∧
    4000 < (bytes (cleaned ps)).length ∧ sanitizeError msg <+: msg ∧
    3997 ≤ (sanitizeError msg).length ∧ (sanitizeError msg).length ≤ 4000 := by
  have hnul : Char.ofNat 0 ∉ List.replicate 1334 fffd := by
    rw [List.mem_replicate]
    exact fun h => absurd h.2 (by decide +kernel)
  have hps := decodes_bytes (List.replicate 1334 fffd)
  have hlong : 4000 < (bytes (cleaned ((List.replicate 1334 fffd).map .rune))).length := by
    rw [cleaned_runes hnul, bytes, List.flatMap_replicate, encode_fffd]
    decide +kernel
  obtain ⟨-, -, hle, -, -, hcut, -⟩ := (sanitizeError_storable _).2 _ hps
  obtain ⟨hpre, -, hge⟩ := hcut hlong
  rw [cleaned_runes hnul] at hpre
  exact ⟨_, _, hps, hlong, hpre, hge, hle⟩

-- two invalid bytes in a row and a NUL
example : sanitizeError [0xE0, 0xA0, 0x61, 0] = replacement ++ 0x61 :: replacement := by
  decide +kernel

end DurablePg
