import Mathlib.Data.List.Basic
import Mathlib.Tactic

/-!
JSON texts: the grammar, and a scanner that finds where a value ends.

The grammar is that of the standard, on bytes. The scanner accepts every text of the grammar and
stops right behind it.
-/

namespace DurablePg.Lib.Json

abbrev Text := List UInt8

/-! ### The grammar -/

def isWs (b : UInt8) : Bool := b = 32 || b = 9 || b = 10 || b = 13

def isDigit (b : UInt8) : Bool := 48 ≤ b && b ≤ 57

def isHex (b : UInt8) : Bool := isDigit b || (65 ≤ b && b ≤ 70) || (97 ≤ b && b ≤ 102)

/-- Insignificant blanks. -/
def Blank (w : Text) : Prop := ∀ b ∈ w, isWs b = true

def Digits (ds : Text) : Prop := ds ≠ [] ∧ ∀ d ∈ ds, isDigit d = true

def IntPart (l : Text) : Prop := l = [48] ∨ (Digits l ∧ l.head? ≠ some 48)

def FracPart (l : Text) : Prop := l = [] ∨ ∃ ds, Digits ds ∧ l = 46 :: ds

def ExpPart (l : Text) : Prop := l = [] ∨ ∃ e sign ds, (e = 101 ∨ e = 69) ∧
  (sign = [] ∨ sign = [43] ∨ sign = [45]) ∧ Digits ds ∧ l = e :: (sign ++ ds)

def IsNumber (l : Text) : Prop := ∃ sign int frac exp, (sign = [] ∨ sign = [45]) ∧ IntPart int ∧
  FracPart frac ∧ ExpPart exp ∧ l = sign ++ (int ++ (frac ++ exp))

/-- The escapes of one character: quote, backslash, slash and the letters. -/
def escapes : List UInt8 := [34, 92, 47, 98, 102, 110, 114, 116]

/-- What stands between the quotes of a string. -/
inductive Chars : Text → Prop
  | nil : Chars []
  | plain {b : UInt8} {l : Text} (hb : 32 ≤ b ∧ b ≠ 34 ∧ b ≠ 92) (h : Chars l) : Chars (b :: l)
  | escape {b : UInt8} {l : Text} (hb : b ∈ escapes) (h : Chars l) : Chars (92 :: b :: l)
  | unicode {w x y z : UInt8} {l : Text}
    (hhex : isHex w = true ∧ isHex x = true ∧ isHex y = true ∧ isHex z = true) (h : Chars l) :
    Chars (92 :: 117 :: w :: x :: y :: z :: l)

/-- What a text can be: a value, or what stands between the brackets of an array or the braces
of an object that is not empty. -/
inductive Kind
  | value | elements | members

inductive Derives : Kind → Text → Prop
  | litNull : Derives .value [110, 117, 108, 108]
  | litTrue : Derives .value [116, 114, 117, 101]
  | litFalse : Derives .value [102, 97, 108, 115, 101]
  | number {l : Text} (h : IsNumber l) : Derives .value l
  | string {cs : Text} (h : Chars cs) : Derives .value (34 :: (cs ++ [34]))
  | emptyArray {w : Text} (hw : Blank w) : Derives .value (91 :: (w ++ [93]))
  | array {l : Text} (h : Derives .elements l) : Derives .value (91 :: (l ++ [93]))
  | emptyObject {w : Text} (hw : Blank w) : Derives .value (123 :: (w ++ [125]))
  | object {l : Text} (h : Derives .members l) : Derives .value (123 :: (l ++ [125]))
  | element {w v w' : Text} (hw : Blank w) (h : Derives .value v) (hw' : Blank w') :
    Derives .elements (w ++ (v ++ w'))
  | elements {w v w' l : Text} (hw : Blank w) (h : Derives .value v) (hw' : Blank w')
    (hl : Derives .elements l) : Derives .elements (w ++ (v ++ (w' ++ 44 :: l)))
  | member {w cs w₁ w₂ v w' : Text} (hw : Blank w) (hcs : Chars cs) (hw₁ : Blank w₁)
    (hw₂ : Blank w₂) (h : Derives .value v) (hw' : Blank w') :
    Derives .members (w ++ 34 :: (cs ++ 34 :: (w₁ ++ 58 :: (w₂ ++ (v ++ w')))))
  | members {w cs w₁ w₂ v w' l : Text} (hw : Blank w) (hcs : Chars cs) (hw₁ : Blank w₁)
    (hw₂ : Blank w₂) (h : Derives .value v) (hw' : Blank w') (hl : Derives .members l) :
    Derives .members (w ++ 34 :: (cs ++ 34 :: (w₁ ++ 58 :: (w₂ ++ (v ++ (w' ++ 44 :: l))))))

/-- The text is a value. -/
def IsValue (l : Text) : Prop := Derives .value l

/-! ### The scanner -/

def skipWs (l : Text) : Text := l.dropWhile isWs

/-- One digit or more. -/
def skipDigits : Text → Option Text
  | [] => none
  | d :: l => if isDigit d then some (l.dropWhile isDigit) else none

def skipInt (l : Text) : Option Text := if l.head? = some 48 then some l.tail else skipDigits l

def skipFrac (l : Text) : Option Text := if l.head? = some 46 then skipDigits l.tail else some l

def skipSign (l : Text) : Text := if l.head? = some 43 || l.head? = some 45 then l.tail else l

def skipExp (l : Text) : Option Text :=
  if l.head? = some 101 || l.head? = some 69 then skipDigits (skipSign l.tail) else some l

def skipNumber (l : Text) : Option Text := do
  let l ← skipInt (if l.head? = some 45 then l.tail else l)
  let l ← skipFrac l
  skipExp l

/-- Where in a string the scanner is: behind a backslash, or with so many digits to come behind
the next one. -/
inductive InString
  | plain
  | escape
  | unicode (left : ℕ)

/-- The rest of a string and its closing quote. -/
def skipChars : InString → Text → Option Text
  | _, [] => none
  | .plain, b :: l =>
    if b = 34 then some l
    else if b = 92 then skipChars .escape l
    else if b < 32 then none
    else skipChars .plain l
  | .escape, b :: l =>
    if b ∈ escapes then skipChars .plain l
    else if b = 117 then skipChars (.unicode 3) l
    else none
  | .unicode 0, b :: l => if isHex b then skipChars .plain l else none
  | .unicode (left + 1), b :: l => if isHex b then skipChars (.unicode left) l else none

/-- A byte that has to come next, after blanks. -/
def expect (b : UInt8) (l : Text) : Option Text :=
  match skipWs l with
  | [] => none
  | c :: l => if c = b then some l else none

/-- A word the text has to begin with. -/
def skipWord (word l : Text) : Option Text :=
  if word.isPrefixOf l then some (l.drop word.length) else none

/-- What follows a text of a kind; elements and members are read with the closing bracket or
brace. -/
def skip : ℕ → Kind → Text → Option Text
  | 0, _, _ => none
  | _ + 1, .value, [] => none
  | fuel + 1, .value, b :: l =>
    if b = 123 then
      if (skipWs l).head? = some 125 then some (skipWs l).tail else skip fuel .members l
    else if b = 91 then
      if (skipWs l).head? = some 93 then some (skipWs l).tail else skip fuel .elements l
    else if b = 34 then skipChars .plain l
    else if b = 110 then skipWord [117, 108, 108] l
    else if b = 116 then skipWord [114, 117, 101] l
    else if b = 102 then skipWord [97, 108, 115, 101] l
    else skipNumber (b :: l)
  | fuel + 1, .elements, l => do
    let l ← skip fuel .value (skipWs l)
    match skipWs l with
    | [] => none
    | b :: l => if b = 93 then some l else if b = 44 then skip fuel .elements l else none
  | fuel + 1, .members, l => do
    let l ← expect 34 l
    let l ← skipChars .plain l
    let l ← expect 58 l
    let l ← skip fuel .value (skipWs l)
    match skipWs l with
    | [] => none
    | b :: l => if b = 125 then some l else if b = 44 then skip fuel .members l else none

/-- What follows a value. -/
def skipValue (l : Text) : Option Text := skip l.length .value l

/-! ### What may follow -/

/-- What may follow a value: a blank, a comma, a closing bracket or brace, or nothing. -/
def Stops (rest : Text) : Prop :=
  ∀ b, rest.head? = some b → isWs b = true ∨ b = 44 ∨ b = 93 ∨ b = 125

def NoDigit (rest : Text) : Prop := ∀ b, rest.head? = some b → isDigit b = false

lemma Stops.noDigit {rest : Text} (h : Stops rest) : NoDigit rest := by
  intro b hb
  rcases h b hb with hws | rfl | rfl | rfl
  · simp only [isWs, Bool.or_eq_true, decide_eq_true_eq] at hws
    rcases hws with ((rfl | rfl) | rfl) | rfl <;> rfl
  all_goals rfl

lemma Stops.head_ne {rest : Text} (h : Stops rest) {c : UInt8} (hws : isWs c = false)
    (hc : c ≠ 44 ∧ c ≠ 93 ∧ c ≠ 125) : rest.head? ≠ some c := by
  intro hb
  rcases h c hb with hb | rfl | rfl | rfl
  · rw [hws] at hb; cases hb
  · exact hc.1 rfl
  · exact hc.2.1 rfl
  · exact hc.2.2 rfl

lemma skipWs_append {w x : Text} (hw : Blank w) (hx : ∀ b, x.head? = some b → isWs b = false) :
    skipWs (w ++ x) = x := by
  unfold skipWs
  rw [List.dropWhile_append_of_pos hw]
  rcases x with _ | ⟨b, x⟩
  · rfl
  · rw [List.dropWhile_cons, hx b rfl]
    rfl

lemma expect_append {w x : Text} {b : UInt8} (hw : Blank w) (hb : isWs b = false) :
    expect b (w ++ b :: x) = some x := by
  rw [expect, skipWs_append hw (by rintro c hc; cases hc; exact hb)]
  exact if_pos rfl

/-! ### Numbers -/

lemma skipDigits_append {ds rest : Text} (hds : Digits ds) (hrest : NoDigit rest) :
    skipDigits (ds ++ rest) = some rest := by
  obtain ⟨hne, hall⟩ := hds
  rcases ds with _ | ⟨d, ds⟩
  · exact absurd rfl hne
  rw [List.cons_append, skipDigits, if_pos (hall d List.mem_cons_self),
    List.dropWhile_append_of_pos fun x hx => hall x (List.mem_cons_of_mem _ hx)]
  rcases rest with _ | ⟨b, rest⟩
  · rfl
  · rw [List.dropWhile_cons, hrest b rfl]
    rfl

lemma Digits.head {ds : Text} (h : Digits ds) : ∃ d l, ds = d :: l ∧ isDigit d = true := by
  obtain ⟨hne, hall⟩ := h
  rcases ds with _ | ⟨d, l⟩
  · exact absurd rfl hne
  · exact ⟨d, l, rfl, hall d List.mem_cons_self⟩

lemma skipInt_append {l rest : Text} (h : IntPart l) (hrest : NoDigit rest) :
    skipInt (l ++ rest) = some rest := by
  unfold skipInt
  rcases h with rfl | ⟨hds, hne⟩
  · rfl
  · have hhead : (l ++ rest).head? ≠ some 48 := by
      obtain ⟨d, l', rfl, -⟩ := hds.head
      exact hne
    rw [if_neg hhead]
    exact skipDigits_append hds hrest

lemma skipFrac_append {l rest : Text} (h : FracPart l) (hrest : NoDigit rest)
    (hdot : rest.head? ≠ some 46) : skipFrac (l ++ rest) = some rest := by
  unfold skipFrac
  rcases h with rfl | ⟨ds, hds, rfl⟩
  · exact if_neg hdot
  · exact skipDigits_append hds hrest

lemma skipSign_append {sign ds rest : Text} (h : sign = [] ∨ sign = [43] ∨ sign = [45])
    (hds : Digits ds) : skipSign (sign ++ (ds ++ rest)) = ds ++ rest := by
  unfold skipSign
  rcases h with rfl | rfl | rfl
  · obtain ⟨d, l, rfl, hd⟩ := hds.head
    refine if_neg ?_
    simp only [List.nil_append, List.cons_append, List.head?_cons, Option.some.injEq,
      Bool.or_eq_true, decide_eq_true_eq]
    rintro (rfl | rfl) <;> cases hd
  · rfl
  · rfl

lemma skipExp_append {l rest : Text} (h : ExpPart l) (hrest : Stops rest) :
    skipExp (l ++ rest) = some rest := by
  unfold skipExp
  rcases h with rfl | ⟨e, sign, ds, he, hsign, hds, rfl⟩
  · refine if_neg ?_
    have h1 := hrest.head_ne (c := 101) (by decide) (by decide)
    have h2 := hrest.head_ne (c := 69) (by decide) (by decide)
    simp [h1, h2]
  · rw [if_pos (by rcases he with rfl | rfl <;> rfl)]
    simp only [List.cons_append, List.tail_cons, List.append_assoc]
    rw [skipSign_append hsign hds]
    exact skipDigits_append hds hrest.noDigit

lemma ExpPart.head {l rest : Text} (h : ExpPart l) (hrest : Stops rest) :
    NoDigit (l ++ rest) ∧ (l ++ rest).head? ≠ some 46 := by
  rcases h with rfl | ⟨e, sign, ds, he, -, -, rfl⟩
  · exact ⟨hrest.noDigit, hrest.head_ne (by decide) (by decide)⟩
  · constructor
    · rintro b hb
      cases hb
      rcases he with rfl | rfl <;> rfl
    · intro hb
      cases hb
      rcases he with he | he <;> cases he

lemma FracPart.noDigit {l rest : Text} (h : FracPart l) (hrest : NoDigit rest) :
    NoDigit (l ++ rest) := by
  rcases h with rfl | ⟨ds, -, rfl⟩
  · exact hrest
  · rintro b hb
    cases hb
    rfl

lemma IntPart.head {l : Text} (h : IntPart l) : ∃ d l', l = d :: l' ∧ isDigit d = true := by
  rcases h with rfl | ⟨hds, -⟩
  · exact ⟨48, [], rfl, rfl⟩
  · exact hds.head

lemma skipNumber_append {l rest : Text} (h : IsNumber l) (hrest : Stops rest) :
    skipNumber (l ++ rest) = some rest := by
  obtain ⟨sign, int, frac, exp, hsign, hint, hfrac, hexp, rfl⟩ := h
  obtain ⟨hdigit, hdot⟩ := hexp.head hrest
  have hminus : (if (sign ++ (int ++ (frac ++ exp)) ++ rest).head? = some 45 then
      (sign ++ (int ++ (frac ++ exp)) ++ rest).tail else sign ++ (int ++ (frac ++ exp)) ++ rest) =
      int ++ (frac ++ (exp ++ rest)) := by
    rcases hsign with rfl | rfl
    · obtain ⟨d, l', rfl, hd⟩ := hint.head
      rw [if_neg (by rintro hb; cases hb; cases hd)]
      simp
    · simp
  unfold skipNumber
  rw [hminus, skipInt_append hint (hfrac.noDigit hdigit), Option.bind_eq_bind, Option.bind_some,
    skipFrac_append hfrac hdigit hdot, Option.bind_some]
  exact skipExp_append hexp hrest

/-! ### Strings -/

lemma skipChars_append {cs rest : Text} (h : Chars cs) :
    skipChars .plain (cs ++ 34 :: rest) = some rest := by
  induction h with
  | nil => rfl
  | plain hb _ ih =>
    rw [List.cons_append, skipChars, if_neg hb.2.1, if_neg hb.2.2, if_neg (UInt8.not_lt.mpr hb.1)]
    exact ih
  | escape hb _ ih =>
    rw [List.cons_append, skipChars, if_neg (by decide), if_pos rfl, List.cons_append, skipChars,
      if_pos hb]
    exact ih
  | unicode hhex _ ih =>
    rw [List.cons_append, skipChars, if_neg (by decide), if_pos rfl, List.cons_append, skipChars,
      if_neg (by decide), if_pos rfl]
    simp only [List.cons_append, skipChars, hhex.1, hhex.2.1, hhex.2.2.1, hhex.2.2.2, if_true]
    exact ih

/-! ### Values -/

lemma Derives.head {l : Text} (h : Derives .value l) :
    ∃ b l', l = b :: l' ∧ isWs b = false ∧ b ≠ 93 ∧ b ≠ 125 := by
  cases h with
  | litNull | litTrue | litFalse => exact ⟨_, _, rfl, by decide⟩
  | string | emptyArray | array | emptyObject | object => exact ⟨_, _, rfl, by decide⟩
  | number h =>
    obtain ⟨sign, int, frac, exp, hsign, hint, -, -, rfl⟩ := h
    rcases hsign with rfl | rfl
    · obtain ⟨d, l', rfl, hd⟩ := hint.head
      refine ⟨d, _, rfl, ?_, ?_, ?_⟩
      · by_contra hws
        simp only [isWs, Bool.not_eq_false, Bool.or_eq_true, decide_eq_true_eq] at hws
        rcases hws with ((rfl | rfl) | rfl) | rfl <;> cases hd
      · rintro rfl; cases hd
      · rintro rfl; cases hd
    · exact ⟨_, _, rfl, by decide⟩

lemma Derives.length_pos {k : Kind} {l : Text} (h : Derives k l) : 0 < l.length := by
  cases h with
  | number h =>
    obtain ⟨sign, int, frac, exp, -, hint, -, -, rfl⟩ := h
    obtain ⟨d, l', rfl, -⟩ := hint.head
    simp only [List.length_append, List.length_cons]
    omega
  | element _ h =>
    obtain ⟨b, l', rfl, -⟩ := h.head
    simp only [List.length_append, List.length_cons]
    omega
  | _ =>
    simp only [List.length_append, List.length_cons]
    omega

lemma skipWs_value {w v x : Text} (hw : Blank w) (hv : Derives .value v) :
    skipWs (w ++ (v ++ x)) = v ++ x := by
  refine skipWs_append hw fun b hb => ?_
  obtain ⟨c, l', rfl, hws, -⟩ := hv.head
  cases hb
  exact hws

lemma Derives.not_closed {k : Kind} {l : Text} (h : Derives k l) :
    (k = .elements → ∀ x, (skipWs (l ++ x)).head? ≠ some 93) ∧
      (k = .members → ∀ x, (skipWs (l ++ x)).head? ≠ some 125) := by
  have hvalue : ∀ {w v y : Text}, Blank w → Derives .value v →
      (skipWs (w ++ (v ++ y))).head? ≠ some 93 := by
    intro w v y hw hv
    rw [skipWs_value hw hv]
    obtain ⟨b, l', rfl, -, hb, -⟩ := hv.head
    exact fun hx => hb (Option.some.inj hx)
  have hquote : ∀ {w y : Text}, Blank w → (skipWs (w ++ 34 :: y)).head? ≠ some 125 := by
    intro w y hw
    rw [skipWs_append hw (by rintro b hb; cases hb; rfl)]
    exact fun hx => by cases hx
  cases h with
  | element hw hv =>
    refine ⟨fun _ x => ?_, fun hk => by cases hk⟩
    rw [List.append_assoc, List.append_assoc]
    exact hvalue hw hv
  | elements hw hv =>
    refine ⟨fun _ x => ?_, fun hk => by cases hk⟩
    rw [List.append_assoc, List.append_assoc]
    exact hvalue hw hv
  | member hw | members hw =>
    refine ⟨(fun hk => by cases hk), fun _ x => ?_⟩
    rw [List.append_assoc]
    exact hquote hw
  | _ => exact ⟨(fun hk => by cases hk), (fun hk => by cases hk)⟩

/-- What the scanner does with a text of each kind. -/
def Skipped : Kind → Text → Prop
  | .value, l => ∀ fuel rest, l.length ≤ fuel → Stops rest →
    skip fuel .value (l ++ rest) = some rest
  | .elements, l => ∀ fuel rest, l.length < fuel → skip fuel .elements (l ++ 93 :: rest) = some rest
  | .members, l => ∀ fuel rest, l.length < fuel → skip fuel .members (l ++ 125 :: rest) = some rest

lemma skipped_value {l : Text} (hl : l ≠ [])
    (h : ∀ fuel rest, l.length ≤ fuel + 1 → Stops rest →
      skip (fuel + 1) .value (l ++ rest) = some rest) : Skipped .value l := by
  intro fuel rest hfuel hrest
  rcases fuel with _ | fuel
  · exact absurd (List.eq_nil_of_length_eq_zero (Nat.le_zero.mp hfuel)) hl
  · exact h fuel rest hfuel hrest

lemma stops_blank {w rest : Text} (hw : Blank w) (hrest : Stops rest) : Stops (w ++ rest) := by
  rcases w with _ | ⟨b, w⟩
  · exact hrest
  · rintro c hc
    cases hc
    exact Or.inl (hw b List.mem_cons_self)

lemma stops_cons {b : UInt8} (hb : b = 44 ∨ b = 93 ∨ b = 125) (l : Text) : Stops (b :: l) := by
  rintro c hc
  cases hc
  exact Or.inr hb

lemma skipWord_append (word rest : Text) : skipWord word (word ++ rest) = some rest := by
  rw [skipWord, if_pos (List.isPrefixOf_iff_prefix.mpr (List.prefix_append _ _)), List.drop_left]

/-- A number begins with a digit or a minus, and so with nothing that begins another value. -/
lemma IsNumber.skip {l rest : Text} (h : IsNumber l) (hrest : Stops rest) (fuel : ℕ) :
    skip (fuel + 1) .value (l ++ rest) = some rest := by
  have hnum := skipNumber_append h hrest
  obtain ⟨b, l', hl, hb⟩ : ∃ b l', l ++ rest = b :: l' ∧ (b = 45 ∨ isDigit b = true) := by
    obtain ⟨sign, int, frac, exp, hsign, hint, -, -, rfl⟩ := h
    rcases hsign with rfl | rfl
    · obtain ⟨d, l', rfl, hd⟩ := hint.head
      exact ⟨d, _, rfl, Or.inr hd⟩
    · exact ⟨45, _, rfl, Or.inl rfl⟩
  rw [hl] at hnum ⊢
  have hne : ∀ c : UInt8, c ≠ 45 → isDigit c = false → b ≠ c := by
    rintro c hc hd rfl
    rcases hb with hb | hb
    · exact hc hb
    · rw [hd] at hb; cases hb
  rw [Json.skip, if_neg (hne _ (by decide) (by decide)), if_neg (hne _ (by decide) (by decide)),
    if_neg (hne _ (by decide) (by decide)), if_neg (hne _ (by decide) (by decide)),
    if_neg (hne _ (by decide) (by decide)), if_neg (hne _ (by decide) (by decide))]
  exact hnum

lemma skip_then {v w' x : Text} {b : UInt8} (ih : Skipped .value v) (hw' : Blank w')
    (hb : b = 44 ∨ b = 93 ∨ b = 125) {fuel : ℕ} (hfuel : v.length ≤ fuel) :
    skip fuel .value (v ++ (w' ++ b :: x)) = some (w' ++ b :: x) ∧
      skipWs (w' ++ b :: x) = b :: x := by
  refine ⟨ih fuel _ hfuel (stops_blank hw' (stops_cons hb x)), skipWs_append hw' ?_⟩
  rintro c hc
  cases hc
  rcases hb with rfl | rfl | rfl <;> rfl

lemma skip_members {w cs w₁ w₂ v x : Text} (hw : Blank w) (hcs : Chars cs) (hw₁ : Blank w₁)
    (hw₂ : Blank w₂) (h : Derives .value v) (fuel : ℕ) :
    skip (fuel + 1) .members (w ++ 34 :: (cs ++ 34 :: (w₁ ++ 58 :: (w₂ ++ (v ++ x))))) =
      (skip fuel .value (v ++ x)).bind fun l => match skipWs l with
        | [] => none
        | b :: l => if b = 125 then some l else if b = 44 then skip fuel .members l else none := by
  rw [skip, expect_append hw (by decide), Option.bind_eq_bind, Option.bind_some,
    skipChars_append hcs, Option.bind_some, expect_append hw₁ (by decide), Option.bind_some,
    skipWs_value hw₂ h]

/-- **The scanner accepts every text of the grammar.** -/
theorem Derives.skipped {k : Kind} {l : Text} (h : Derives k l) : Skipped k l := by
  induction h with
  | litNull =>
    exact skipped_value (by simp) fun _ rest _ _ => skipWord_append [117, 108, 108] rest
  | litTrue =>
    exact skipped_value (by simp) fun _ rest _ _ => skipWord_append [114, 117, 101] rest
  | litFalse =>
    exact skipped_value (by simp) fun _ rest _ _ => skipWord_append [97, 108, 115, 101] rest
  | number h =>
    have hne := List.ne_nil_of_length_pos (Derives.number h).length_pos
    exact skipped_value hne fun fuel rest _ hrest => h.skip hrest fuel
  | string h =>
    refine skipped_value (by simp) fun fuel rest _ _ => ?_
    rw [List.cons_append, List.append_assoc]
    exact skipChars_append h
  | emptyArray hw =>
    refine skipped_value (by simp) fun fuel rest _ _ => ?_
    have hws := skipWs_append (x := 93 :: rest) hw (by rintro b hb; cases hb; rfl)
    rw [List.cons_append, List.append_assoc, skip, if_neg (by decide), if_pos rfl]
    simp only [List.cons_append, List.nil_append, hws, List.head?_cons, if_true, List.tail_cons]
  | array h ih =>
    refine skipped_value (by simp) fun fuel rest hfuel _ => ?_
    simp only [List.length_append, List.length_cons, List.length_nil] at hfuel
    rw [List.cons_append, List.append_assoc, skip, if_neg (by decide), if_pos rfl,
      if_neg (h.not_closed.1 rfl _)]
    exact ih fuel rest (by omega)
  | emptyObject hw =>
    refine skipped_value (by simp) fun fuel rest _ _ => ?_
    have hws := skipWs_append (x := 125 :: rest) hw (by rintro b hb; cases hb; rfl)
    rw [List.cons_append, List.append_assoc, skip, if_pos rfl]
    simp only [List.cons_append, List.nil_append, hws, List.head?_cons, if_true, List.tail_cons]
  | object h ih =>
    refine skipped_value (by simp) fun fuel rest hfuel _ => ?_
    simp only [List.length_append, List.length_cons, List.length_nil] at hfuel
    rw [List.cons_append, List.append_assoc, skip, if_pos rfl, if_neg (h.not_closed.2 rfl _)]
    exact ih fuel rest (by omega)
  | @element w v w' hw h hw' ih =>
    intro fuel rest hfuel
    obtain ⟨fuel, rfl⟩ : ∃ n, fuel = n + 1 := ⟨fuel - 1, by omega⟩
    simp only [List.length_append] at hfuel
    obtain ⟨hv, hws⟩ := skip_then (x := rest) ih hw' (Or.inr (Or.inl rfl))
      (show v.length ≤ fuel by omega)
    rw [skip, List.append_assoc, List.append_assoc, skipWs_value hw h, hv, Option.bind_eq_bind,
      Option.bind_some, hws]
    rfl
  | @elements w v w' l hw h hw' hl ih ihl =>
    intro fuel rest hfuel
    obtain ⟨fuel, rfl⟩ : ∃ n, fuel = n + 1 := ⟨fuel - 1, by omega⟩
    simp only [List.length_append, List.length_cons] at hfuel
    obtain ⟨hv, hws⟩ := skip_then (x := l ++ 93 :: rest) ih hw' (Or.inl rfl)
      (show v.length ≤ fuel by omega)
    rw [skip]
    simp only [List.append_assoc, List.cons_append]
    rw [skipWs_value hw h, hv, Option.bind_eq_bind, Option.bind_some, hws]
    exact ihl fuel rest (by omega)
  | @member w cs w₁ w₂ v w' hw hcs hw₁ hw₂ h hw' ih =>
    intro fuel rest hfuel
    obtain ⟨fuel, rfl⟩ : ∃ n, fuel = n + 1 := ⟨fuel - 1, by omega⟩
    simp only [List.length_append, List.length_cons] at hfuel
    obtain ⟨hv, hws⟩ := skip_then (x := rest) ih hw' (Or.inr (Or.inr rfl))
      (show v.length ≤ fuel by omega)
    simp only [List.append_assoc, List.cons_append]
    rw [skip_members hw hcs hw₁ hw₂ h, hv, Option.bind_some, hws]
    rfl
  | @members w cs w₁ w₂ v w' l hw hcs hw₁ hw₂ h hw' hl ih ihl =>
    intro fuel rest hfuel
    obtain ⟨fuel, rfl⟩ : ∃ n, fuel = n + 1 := ⟨fuel - 1, by omega⟩
    simp only [List.length_append, List.length_cons] at hfuel
    obtain ⟨hv, hws⟩ := skip_then (x := l ++ 125 :: rest) ih hw' (Or.inl rfl)
      (show v.length ≤ fuel by omega)
    simp only [List.append_assoc, List.cons_append]
    rw [skip_members hw hcs hw₁ hw₂ h, hv, Option.bind_some, hws]
    exact ihl fuel rest (by omega)

end DurablePg.Lib.Json
