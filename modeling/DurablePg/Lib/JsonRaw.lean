import DurablePg.Lib.Json

/-!
The raw texts inside an array or an object, as a decoder that keeps the bytes of nested values
returns them, and the member of an object that a decoder takes for a field.

A list of texts, written with the separators a printer puts between them, is read back, and so
is a number written in decimal. A decoder may refuse a text that is nested too deeply; how deep a
text is follows from its parts.
-/

namespace DurablePg.Lib.Json

/-- A value after blanks: its text, and what follows. -/
def takeValue (l : Text) : Option (Text × Text) :=
  (skipValue (skipWs l)).map fun rest =>
    ((skipWs l).take ((skipWs l).length - rest.length), rest)

/-- A member of an object: what stands between the quotes of its key and the text of its
value, and what follows. -/
def takeMember (l : Text) : Option ((Text × Text) × Text) := do
  let l ← expect 34 l
  let rest ← skipChars .plain l
  let tail ← expect 58 rest
  let (v, tail) ← takeValue tail
  return ((l.take (l.length - rest.length - 1), v), tail)

section Lists

variable {α : Type}

/-- One item or more, then the closing byte and nothing else. -/
def takeList (one : Text → Option (α × Text)) (close : UInt8) : ℕ → Text → Option (List α)
  | 0, _ => none
  | fuel + 1, l => do
    let (a, l) ← one l
    match skipWs l with
    | [] => none
    | b :: l =>
      if b = close then if skipWs l = [] then some [a] else none
      else if b = 44 then (takeList one close fuel l).map (a :: ·)
      else none

def rawList (one : Text → Option (α × Text)) (opening close : UInt8) (l : Text) :
    Option (List α) := do
  let l ← expect opening l
  if (skipWs l).head? = some close then if skipWs (skipWs l).tail = [] then some [] else none
  else takeList one close l.length l

end Lists

/-- The texts of the elements of an array. -/
def rawArray (l : Text) : Option (List Text) := rawList takeValue 91 93 l

/-- The keys and the texts of the values of an object. -/
def rawObject (l : Text) : Option (List (Text × Text)) := rawList takeMember 123 125 l

/-! ### Fields -/

def hexValue (b : UInt8) : ℕ :=
  if isDigit b then b.toNat - 48 else if 97 ≤ b then b.toNat - 87 else b.toNat - 55

/-- What the letter of an escape stands for. -/
def unescaped (b : UInt8) : ℕ :=
  if b = 98 then 8 else if b = 102 then 12 else if b = 110 then 10 else if b = 114 then 13
  else if b = 116 then 9 else b.toNat

/-- The characters of a key: its bytes, with every escape as the code unit it stands for. -/
def codeUnits : InString → ℕ → Text → List ℕ
  | _, _, [] => []
  | .plain, _, b :: l => if b = 92 then codeUnits .escape 0 l else b.toNat :: codeUnits .plain 0 l
  | .escape, _, b :: l =>
    if b = 117 then codeUnits (.unicode 3) 0 l else unescaped b :: codeUnits .plain 0 l
  | .unicode 0, acc, b :: l => (16 * acc + hexValue b) :: codeUnits .plain 0 l
  | .unicode (left + 1), acc, b :: l => codeUnits (.unicode left) (16 * acc + hexValue b) l

def lowerCase (n : ℕ) : ℕ := if 65 ≤ n ∧ n ≤ 90 then n + 32 else n

/-- The key names the field, in whatever case. The name is ASCII, without the two letters that
have a variant beyond it. -/
def keyMatches (name key : Text) : Bool :=
  (codeUnits .plain 0 key).map lowerCase = name.map fun b => lowerCase b.toNat

/-- The text that a decoder keeps for a field: that of the last member whose key matches. -/
def rawField (name l : Text) : Option Text := do
  let members ← rawObject l
  let (_, v) ← (members.filter fun m => keyMatches name m.1).getLast?
  return v

lemma rawField_single {name l key v : Text} (h : rawObject l = some [(key, v)])
    (hkey : keyMatches name key = true) : rawField name l = some v := by
  rw [rawField, h]
  simp [hkey]

/-! ### Items read back -/

lemma takeValue_append {w v rest : Text} (hw : Blank w) (hv : IsValue v) (hrest : Stops rest) :
    takeValue (w ++ (v ++ rest)) = some (v, rest) := by
  have hskip : skipValue (v ++ rest) = some rest :=
    hv.skipped _ rest (by rw [List.length_append]; omega) hrest
  rw [takeValue, skipWs_value hw hv, hskip, Option.map_some, List.length_append,
    Nat.add_sub_cancel, List.take_left]

lemma takeMember_append {w key w₂ v rest : Text} (hw : Blank w) (hkey : Chars key)
    (hw₂ : Blank w₂) (hv : IsValue v) (hrest : Stops rest) :
    takeMember (w ++ 34 :: (key ++ 34 :: 58 :: (w₂ ++ (v ++ rest)))) =
      some ((key, v), rest) := by
  have hcolon : expect 58 (58 :: (w₂ ++ (v ++ rest))) = some (w₂ ++ (v ++ rest)) :=
    expect_append (w := []) (fun _ hb => by cases hb) (by decide)
  have htake : (key ++ 34 :: 58 :: (w₂ ++ (v ++ rest))).take
      ((key ++ 34 :: 58 :: (w₂ ++ (v ++ rest))).length -
        (58 :: (w₂ ++ (v ++ rest))).length - 1) = key := by
    rw [List.length_append, List.length_cons (a := 34),
      show ∀ a b : ℕ, a + (b + 1) - b - 1 = a by intro a b; omega, List.take_left]
  simp only [takeMember, Option.bind_eq_bind]
  rw [expect_append hw (by decide), Option.bind_some, skipChars_append hkey, Option.bind_some,
    hcolon, Option.bind_some, takeValue_append hw₂ hv hrest, Option.bind_some, htake]
  rfl

/-! ### Lists read back -/

section Lists

variable {α : Type} {one : Text → Option (α × Text)} {item : α → Text} {opening close : UInt8}

/-- The items as the server prints a list: a comma and a blank between them. -/
def listText (item : α → Text) (opening close : UInt8) : List α → Text
  | [] => [opening, close]
  | x :: xs => opening :: (item x ++ (xs.flatMap (fun y => 44 :: 32 :: item y) ++ [close]))

/-- An item is read back wherever it stands in a list. -/
def Reads (one : Text → Option (α × Text)) (item : α → Text) (x : α) : Prop :=
  ∀ w rest, Blank w → Stops rest → one (w ++ (item x ++ rest)) = some (x, rest)

lemma blank_nil : Blank [] := fun _ hb => by cases hb

lemma blank_space : Blank [32] := by
  intro b hb
  rw [List.mem_singleton.mp hb]
  rfl

lemma takeList_items (hclose : close = 93 ∨ close = 125) (x : α) (xs : List α)
    (hone : ∀ y ∈ x :: xs, Reads one item y) {w : Text} (hw : Blank w) {fuel : ℕ}
    (hfuel : xs.length < fuel) :
    takeList one close fuel
      (w ++ (item x ++ (xs.flatMap (fun y => 44 :: 32 :: item y) ++ [close]))) =
        some (x :: xs) := by
  have hne : close ≠ 44 := by rcases hclose with rfl | rfl <;> decide
  induction xs generalizing x w fuel with
  | nil =>
    obtain ⟨fuel, rfl⟩ : ∃ n, fuel = n + 1 := ⟨fuel - 1, by omega⟩
    have hread := hone x List.mem_cons_self w [close] hw (stops_cons (Or.inr hclose) [])
    have hws : skipWs [close] = [close] := by rcases hclose with rfl | rfl <;> rfl
    rw [List.flatMap_nil, List.nil_append, takeList, hread, Option.bind_eq_bind, Option.bind_some]
    simp only [hws, if_true]
    rfl
  | cons y ys ih =>
    obtain ⟨fuel, rfl⟩ : ∃ n, fuel = n + 1 := ⟨fuel - 1, by omega⟩
    have hread := hone x List.mem_cons_self w _ hw (stops_cons (Or.inl rfl)
      ([32] ++ (item y ++ (ys.flatMap (fun y => 44 :: 32 :: item y) ++ [close]))))
    have hrest := ih y (fun z hz => hone z (List.mem_cons_of_mem _ hz)) blank_space
      (show ys.length < fuel by simp only [List.length_cons] at hfuel; omega)
    rw [List.flatMap_cons, takeList]
    simp only [List.cons_append, List.append_assoc, List.nil_append] at hread hrest ⊢
    rw [hread, Option.bind_eq_bind, Option.bind_some]
    simp only [show ∀ l : Text, skipWs (44 :: l) = 44 :: l from fun _ => rfl, if_neg hne.symm,
      if_true]
    rw [hrest, Option.map_some]

/-- **A printed list is read back.** No item begins with a blank or with the closing byte. -/
theorem rawList_listText (hopening : isWs opening = false) (hclose : close = 93 ∨ close = 125)
    {xs : List α} (hone : ∀ x ∈ xs, Reads one item x)
    (hhead : ∀ x ∈ xs, ∃ b l, item x = b :: l ∧ isWs b = false ∧ b ≠ close) :
    rawList one opening close (listText item opening close xs) = some xs := by
  have hexpect : ∀ l : Text, expect opening (opening :: l) = some l := fun l =>
    expect_append blank_nil hopening
  rcases xs with _ | ⟨x, xs⟩
  · have hws : skipWs [close] = [close] := by rcases hclose with rfl | rfl <;> rfl
    rw [listText, rawList, hexpect, Option.bind_eq_bind, Option.bind_some, hws]
    simp [skipWs]
  · obtain ⟨b, l, hitem, hb, hne⟩ := hhead x List.mem_cons_self
    rw [listText, rawList, hexpect, Option.bind_eq_bind, Option.bind_some]
    have hws : (skipWs (item x ++ (xs.flatMap (fun y => 44 :: 32 :: item y) ++ [close]))).head? ≠
        some close := by
      have hskip := skipWs_append (x := item x ++ (xs.flatMap (fun y => 44 :: 32 :: item y) ++
        [close])) blank_nil (by rw [hitem]; rintro c hc; cases hc; exact hb)
      rw [List.nil_append] at hskip
      rw [hskip, hitem]
      exact fun hx => hne (Option.some.inj hx)
    rw [if_neg hws]
    refine takeList_items hclose x xs hone blank_nil ?_
    simp only [List.length_append, List.length_flatMap, List.length_cons, List.length_nil]
    have hsum : xs.length ≤ (xs.map fun y => (item y).length + 1 + 1).sum := by
      clear hone hhead hws
      induction xs with
      | nil => simp
      | cons y ys ih =>
        simp only [List.length_cons, List.map_cons, List.sum_cons]
        omega
    omega

end Lists

lemma reads_takeValue {v : Text} (hv : IsValue v) : Reads takeValue id v :=
  fun _ _ hw hrest => takeValue_append hw hv hrest

/-- A printed array has the texts of its elements as its raw texts. -/
theorem rawArray_listText {vs : List Text} (h : ∀ v ∈ vs, IsValue v) :
    rawArray (listText id 91 93 vs) = some vs := by
  refine rawList_listText (by decide) (Or.inl rfl) (fun v hv => reads_takeValue (h v hv)) ?_
  intro v hv
  obtain ⟨b, l, hl, hws, hb, -⟩ := (h v hv).head
  exact ⟨b, l, hl, hws, hb⟩

lemma derives_elements {v : Text} {vs : List Text} (h : ∀ u ∈ v :: vs, IsValue u) {w : Text}
    (hw : Blank w) : Derives .elements (w ++ (v ++ vs.flatMap fun y => 44 :: 32 :: y)) := by
  induction vs generalizing v w with
  | nil => exact .element hw (h v List.mem_cons_self) blank_nil
  | cons u us ih =>
    exact .elements hw (h v List.mem_cons_self) blank_nil
      (ih (fun y hy => h y (List.mem_cons_of_mem _ hy)) blank_space)

lemma isValue_listText {vs : List Text} (h : ∀ v ∈ vs, IsValue v) :
    IsValue (listText id 91 93 vs) := by
  rcases vs with _ | ⟨v, vs⟩
  · exact .emptyArray blank_nil
  · have hd := Derives.array (derives_elements h blank_nil)
    simpa [listText, IsValue] using hd

/-- An object with one member. -/
theorem rawObject_single {key w v : Text} (hkey : Chars key) (hw : Blank w) (hv : IsValue v) :
    rawObject (123 :: 34 :: (key ++ 34 :: 58 :: (w ++ (v ++ [125])))) = some [(key, v)] := by
  let item : Text × Text → Text := fun m => 34 :: (m.1 ++ 34 :: 58 :: (w ++ m.2))
  have hread : Reads takeMember item (key, v) := by
    intro w' rest hw' hrest
    simpa [item] using takeMember_append hw' hkey hw hv hrest
  have hlist : rawList takeMember 123 125 (listText item 123 125 [(key, v)]) = some [(key, v)] :=
    rawList_listText (by decide) (Or.inr rfl)
      (fun x hx => by rw [List.mem_singleton.mp hx]; exact hread)
      (fun x hx => ⟨34, _, rfl, by decide, by decide⟩)
  simpa [listText, item, rawObject] using hlist

/-! ### Nesting -/

/-- A scan for brackets and braces that stand in no string. -/
structure Nest where
  inString : Bool
  escaped : Bool
  depth : ℕ
  deepest : ℕ

namespace Nest

def next (s : Nest) (b : UInt8) : Nest :=
  if s.inString then
    if s.escaped then { s with escaped := false }
    else if b = 92 then { s with escaped := true }
    else if b = 34 then { s with inString := false }
    else s
  else if b = 34 then { s with inString := true }
  else if b = 91 || b = 123 then
    { s with depth := s.depth + 1, deepest := max s.deepest (s.depth + 1) }
  else if b = 93 || b = 125 then { s with depth := s.depth - 1 }
  else s

def run (s : Nest) (l : Text) : Nest := l.foldl next s

@[simp] lemma run_nil (s : Nest) : s.run [] = s := rfl
@[simp] lemma run_cons (s : Nest) (b : UInt8) (l : Text) : s.run (b :: l) = (s.next b).run l := rfl

lemma run_append (s : Nest) (l l' : Text) : s.run (l ++ l') = (s.run l).run l' := by
  simp [run, List.foldl_append]

end Nest

/-- How deep the arrays and objects of a text are nested. -/
def nesting (l : Text) : ℕ := (Nest.run ⟨false, false, 0, 0⟩ l).deepest

/-- A byte that neither opens nor closes anything. -/
def isFlat (b : UInt8) : Bool := b ≠ 34 && b ≠ 91 && b ≠ 123 && b ≠ 93 && b ≠ 125

/-- The scan comes out of the text where it was, and has seen so many levels on the way. -/
def Levels (l : Text) (n : ℕ) : Prop :=
  ∀ depth deepest, depth ≤ deepest →
    Nest.run ⟨false, false, depth, deepest⟩ l = ⟨false, false, depth, max deepest (depth + n)⟩

namespace Levels

variable {l l' : Text} {n n' : ℕ}

lemma nesting_eq (h : Levels l n) : nesting l = n := by
  rw [nesting, h 0 0 le_rfl]
  simp

lemma flat (h : ∀ b ∈ l, isFlat b = true) : Levels l 0 := by
  intro depth deepest hle
  rw [Nat.add_zero, max_eq_left hle]
  induction l with
  | nil => rfl
  | cons b l ih =>
    have hb := h b List.mem_cons_self
    simp only [isFlat, Bool.and_eq_true, decide_eq_true_eq] at hb
    have hnext : Nest.next ⟨false, false, depth, deepest⟩ b = ⟨false, false, depth, deepest⟩ := by
      simp [Nest.next, hb]
    rw [Nest.run_cons, hnext]
    exact ih fun c hc => h c (List.mem_cons_of_mem _ hc)

lemma append (h : Levels l n) (h' : Levels l' n') : Levels (l ++ l') (max n n') := by
  intro depth deepest hle
  rw [Nest.run_append, h depth deepest hle, h' depth _ (by omega)]
  congr 1
  omega

lemma blank {w : Text} (hw : Blank w) : Levels w 0 := by
  refine flat fun b hb => ?_
  have hws := hw b hb
  simp only [isWs, Bool.or_eq_true, decide_eq_true_eq] at hws
  rcases hws with ((rfl | rfl) | rfl) | rfl <;> rfl

lemma byte {b : UInt8} (hb : isFlat b = true) : Levels [b] 0 :=
  flat fun c hc => by rw [List.mem_singleton.mp hc]; exact hb

lemma enclosed (h : Levels l n) {opening close : UInt8}
    (hbytes : (opening = 91 ∧ close = 93) ∨ (opening = 123 ∧ close = 125)) :
    Levels (opening :: (l ++ [close])) (n + 1) := by
  intro depth deepest hle
  have hopen : Nest.next ⟨false, false, depth, deepest⟩ opening =
      ⟨false, false, depth + 1, max deepest (depth + 1)⟩ := by
    rcases hbytes with ⟨rfl, -⟩ | ⟨rfl, -⟩ <;> rfl
  have hclose : ∀ deepest, Nest.next ⟨false, false, depth + 1, deepest⟩ close =
      ⟨false, false, depth, deepest⟩ := by
    intro deepest
    rcases hbytes with ⟨-, rfl⟩ | ⟨-, rfl⟩ <;> rfl
  rw [Nest.run_cons, hopen, Nest.run_append, h (depth + 1) _ (by omega), Nest.run_cons, hclose,
    Nest.run_nil]
  congr 1
  omega

lemma isHex_ne {b : UInt8} (h : isHex b = true) : b ≠ 34 ∧ b ≠ 92 := by
  constructor <;> rintro rfl <;> cases h

lemma chars {cs : Text} (h : Chars cs) (depth deepest : ℕ) :
    Nest.run ⟨true, false, depth, deepest⟩ cs = ⟨true, false, depth, deepest⟩ := by
  induction h with
  | nil => rfl
  | plain hb _ ih =>
    rw [Nest.run_cons]
    simpa [Nest.next, hb] using ih
  | escape hb _ ih => simpa [Nest.next] using ih
  | unicode hhex _ ih =>
    obtain ⟨hw, hx, hy, hz⟩ := hhex
    simpa [Nest.next, isHex_ne hw, isHex_ne hx, isHex_ne hy, isHex_ne hz] using ih

lemma string {cs : Text} (h : Chars cs) : Levels (34 :: (cs ++ [34])) 0 := by
  intro depth deepest hle
  rw [Nest.run_cons, Nat.add_zero, max_eq_left hle]
  change Nest.run ⟨true, false, depth, deepest⟩ (cs ++ [34]) = _
  rw [Nest.run_append, chars h]
  rfl

lemma number (h : IsNumber l) : Levels l 0 := by
  obtain ⟨sign, int, frac, exp, hsign, hint, hfrac, hexp, rfl⟩ := h
  have hdigits : ∀ {ds : Text}, Digits ds → Levels ds 0 := by
    intro ds hds
    refine flat fun d hd => ?_
    have hdigit := hds.2 d hd
    simp only [isFlat, Bool.and_eq_true, decide_eq_true_eq]
    refine ⟨⟨⟨⟨?_, ?_⟩, ?_⟩, ?_⟩, ?_⟩ <;> rintro rfl <;> cases hdigit
  have hsign' : Levels sign 0 := by
    rcases hsign with rfl | rfl
    · exact flat fun b hb => by cases hb
    · exact byte rfl
  have hint' : Levels int 0 := by
    rcases hint with rfl | ⟨hds, -⟩
    · exact byte rfl
    · exact hdigits hds
  have hfrac' : Levels frac 0 := by
    rcases hfrac with rfl | ⟨ds, hds, rfl⟩
    · exact flat fun b hb => by cases hb
    · exact (byte (b := 46) rfl).append (hdigits hds)
  have hexp' : Levels exp 0 := by
    rcases hexp with rfl | ⟨e, esign, ds, he, hesign, hds, rfl⟩
    · exact flat fun b hb => by cases hb
    · have he' : Levels [e] 0 := by rcases he with rfl | rfl <;> exact byte rfl
      have hesign' : Levels esign 0 := by
        rcases hesign with rfl | rfl | rfl
        · exact flat fun b hb => by cases hb
        all_goals exact byte rfl
      exact he'.append (hesign'.append (hdigits hds))
  exact hsign'.append (hint'.append (hfrac'.append hexp'))

end Levels

/-- **Every text of the grammar has its levels.** -/
theorem Derives.levels {k : Kind} {l : Text} (h : Derives k l) : Levels l (nesting l) := by
  suffices hsome : ∃ n, Levels l n by
    obtain ⟨n, hn⟩ := hsome
    rwa [hn.nesting_eq]
  induction h with
  | litNull | litTrue | litFalse => exact ⟨0, .flat (List.all_eq_true.mp rfl)⟩
  | number h => exact ⟨0, .number h⟩
  | string h => exact ⟨0, .string h⟩
  | emptyArray hw => exact ⟨_, (Levels.blank hw).enclosed (Or.inl ⟨rfl, rfl⟩)⟩
  | emptyObject hw => exact ⟨_, (Levels.blank hw).enclosed (Or.inr ⟨rfl, rfl⟩)⟩
  | array _ ih =>
    obtain ⟨n, hn⟩ := ih
    exact ⟨_, hn.enclosed (Or.inl ⟨rfl, rfl⟩)⟩
  | object _ ih =>
    obtain ⟨n, hn⟩ := ih
    exact ⟨_, hn.enclosed (Or.inr ⟨rfl, rfl⟩)⟩
  | element hw _ hw' ih =>
    obtain ⟨n, hn⟩ := ih
    exact ⟨_, (Levels.blank hw).append (hn.append (.blank hw'))⟩
  | elements hw _ hw' _ ih ihl =>
    obtain ⟨n, hn⟩ := ih
    obtain ⟨n', hn'⟩ := ihl
    exact ⟨_, (Levels.blank hw).append (hn.append ((Levels.blank hw').append
      ((Levels.byte (b := 44) rfl).append hn')))⟩
  | member hw hcs hw₁ hw₂ _ hw' ih =>
    obtain ⟨n, hn⟩ := ih
    have hkey := (Levels.string hcs).append ((Levels.blank hw₁).append
      ((Levels.byte (b := 58) rfl).append ((Levels.blank hw₂).append (hn.append (.blank hw')))))
    exact ⟨_, by simpa using (Levels.blank hw).append hkey⟩
  | members hw hcs hw₁ hw₂ _ hw' _ ih ihl =>
    obtain ⟨n, hn⟩ := ih
    obtain ⟨n', hn'⟩ := ihl
    have hkey := (Levels.string hcs).append ((Levels.blank hw₁).append
      ((Levels.byte (b := 58) rfl).append ((Levels.blank hw₂).append (hn.append
        ((Levels.blank hw').append ((Levels.byte (b := 44) rfl).append hn'))))))
    exact ⟨_, by simpa using (Levels.blank hw).append hkey⟩

/-- **A printed array is one level deeper than its elements.** -/
theorem nesting_listText {vs : List Text} (h : ∀ v ∈ vs, IsValue v) (n : ℕ) :
    nesting (listText id 91 93 vs) ≤ n + 1 ↔ ∀ v ∈ vs, nesting v ≤ n := by
  have hsep : Levels [44, 32] 0 := .flat (List.all_eq_true.mp rfl)
  -- the elements behind the first one, each behind a comma and a blank
  have htail : ∀ us : List Text, (∀ u ∈ us, IsValue u) →
      ∃ m, Levels (us.flatMap fun u => 44 :: 32 :: id u) m ∧ (m ≤ n ↔ ∀ u ∈ us, nesting u ≤ n) := by
    intro us hus
    induction us with
    | nil => exact ⟨0, .flat (fun b hb => by cases hb), by simp⟩
    | cons u us ih =>
      obtain ⟨m, hm, hiff⟩ := ih fun u' hu' => hus u' (List.mem_cons_of_mem _ hu')
      refine ⟨_, (hsep.append (hus u List.mem_cons_self).levels).append hm, ?_⟩
      simp [hiff]
  rcases vs with _ | ⟨v, vs⟩
  · simp [listText, show nesting [91, 93] = 1 from rfl]
  · obtain ⟨m, hm, hiff⟩ := htail vs fun u hu => h u (List.mem_cons_of_mem _ hu)
    have hall : Levels (91 :: (v ++ vs.flatMap (fun u => 44 :: 32 :: id u) ++ [93])) _ :=
      ((h v List.mem_cons_self).levels.append hm).enclosed (Or.inl ⟨rfl, rfl⟩)
    rw [List.append_assoc] at hall
    rw [listText, id_eq, hall.nesting_eq, Nat.add_le_add_iff_right, max_le_iff, hiff]
    simp

/-! ### Integers -/

/-- A number in decimal. -/
def decimal (n : ℕ) : Text := (Nat.toDigits 10 n).map fun c => UInt8.ofNat c.toNat

def digitsValue (ds : Text) : ℕ := ds.foldl (fun n d => 10 * n + (d.toNat - 48)) 0

/-- The integer of 64 bits that a decoder reads off a value; `null` leaves a zero. -/
def decodeInt (l : Text) : Option ℤ :=
  if l = [110, 117, 108, 108] then some 0
  else
    let negative := l.head? = some 45
    let ds := if negative then l.tail else l
    if skipInt ds = some [] then
      let n : ℤ := if negative then -digitsValue ds else digitsValue ds
      if -2 ^ 63 ≤ n ∧ n < 2 ^ 63 then some n else none
    else none

lemma decimal_of_lt {n : ℕ} (h : n < 10) : decimal n = [UInt8.ofNat (48 + n)] := by
  rw [decimal, Nat.toDigits_of_lt_base h, List.map_singleton, Nat.toNat_digitChar_of_lt_ten h]

lemma decimal_of_le {n : ℕ} (h : 10 ≤ n) :
    decimal n = decimal (n / 10) ++ [UInt8.ofNat (48 + n % 10)] := by
  rw [decimal, Nat.toDigits_of_base_le (by decide) h, List.map_append, List.map_singleton,
    Nat.toNat_digitChar_of_lt_ten (Nat.mod_lt _ (by decide))]
  rfl

lemma toNat_digit {d : ℕ} (h : d < 10) : (UInt8.ofNat (48 + d)).toNat = 48 + d := by
  rw [UInt8.toNat_ofNat']
  omega

lemma isDigit_digit {d : ℕ} (h : d < 10) : isDigit (UInt8.ofNat (48 + d)) = true := by
  have hd := toNat_digit h
  simp only [isDigit, Bool.and_eq_true, decide_eq_true_eq, UInt8.le_iff_toNat_le]
  rw [hd]
  exact ⟨by simp, by simp; omega⟩

lemma digitsValue_decimal (n : ℕ) : digitsValue (decimal n) = n := by
  induction n using Nat.strongRecOn with
  | ind n ih =>
    rcases Nat.lt_or_ge n 10 with hlt | hge
    · rw [decimal_of_lt hlt, digitsValue, List.foldl_cons, List.foldl_nil, toNat_digit hlt]
      omega
    · have hdiv := ih (n / 10) (by omega)
      rw [digitsValue] at hdiv
      rw [decimal_of_le hge, digitsValue, List.foldl_append, hdiv, List.foldl_cons,
        List.foldl_nil, toNat_digit (by omega)]
      omega

lemma decimal_digits (n : ℕ) :
    Digits (decimal n) ∧ (0 < n → (decimal n).head? ≠ some 48) := by
  induction n using Nat.strongRecOn with
  | ind n ih =>
    rcases Nat.lt_or_ge n 10 with hlt | hge
    · rw [decimal_of_lt hlt]
      refine ⟨⟨by simp, fun d hd => ?_⟩, fun hpos hhead => ?_⟩
      · rw [List.mem_singleton.mp hd]
        exact isDigit_digit hlt
      · have hnat := congrArg UInt8.toNat (Option.some.inj hhead)
        rw [toNat_digit hlt] at hnat
        have hzero : (48 : UInt8).toNat = 48 := rfl
        omega
    · obtain ⟨⟨hne, hall⟩, hhead⟩ := ih (n / 10) (by omega)
      rw [decimal_of_le hge]
      refine ⟨⟨by simp, fun d hd => ?_⟩, fun _ => ?_⟩
      · rcases List.mem_append.mp hd with hd | hd
        · exact hall d hd
        · rw [List.mem_singleton.mp hd]
          exact isDigit_digit (by omega)
      · rw [List.head?_append_of_ne_nil _ hne]
        exact hhead (by omega)

lemma intPart_decimal (n : ℕ) : IntPart (decimal n) := by
  obtain ⟨hdigits, hhead⟩ := decimal_digits n
  rcases Nat.eq_zero_or_pos n with rfl | hpos
  · exact Or.inl rfl
  · exact Or.inr ⟨hdigits, hhead hpos⟩

lemma isValue_decimal (n : ℕ) : IsValue (decimal n) :=
  .number ⟨[], decimal n, [], [], Or.inl rfl, intPart_decimal n, Or.inl rfl, Or.inl rfl, by simp⟩

lemma nesting_decimal (n : ℕ) : nesting (decimal n) = 0 :=
  (Levels.number ⟨[], decimal n, [], [], Or.inl rfl, intPart_decimal n, Or.inl rfl, Or.inl rfl,
    by simp⟩).nesting_eq

/-- **A number in decimal is read back.** -/
theorem decodeInt_decimal {n : ℕ} (h : n < 2 ^ 63) : decodeInt (decimal n) = some (n : ℤ) := by
  obtain ⟨d, ds, hd, hdigit⟩ := (decimal_digits n).1.head
  have hnull : decimal n ≠ [110, 117, 108, 108] := by
    intro heq
    rw [hd] at heq
    obtain rfl := (List.cons.inj heq).1
    cases hdigit
  have hminus : (decimal n).head? ≠ some 45 := by
    rw [hd]
    intro heq
    obtain rfl := Option.some.inj heq
    cases hdigit
  have hskip : skipInt (decimal n) = some [] := by
    have hnone : NoDigit [] := fun _ hb => by cases hb
    have hall := skipInt_append (intPart_decimal n) hnone
    rwa [List.append_nil] at hall
  simp only [decodeInt, if_neg hnull, hminus, if_false, hskip, if_true, digitsValue_decimal]
  exact if_pos ⟨by omega, by omega⟩

end DurablePg.Lib.Json
