import DurablePg.Types

/-!
A small JSONB: `null`, the booleans and the outcomes of waits. It prints an object with a
blank after the colon, as the server does, and reads one with or without it.
-/

namespace DurablePg

inductive Doc
  | null
  | bool (b : Bool)
  | timedOut
  | received (d : Doc)
  deriving DecidableEq

namespace Doc

def head : Bytes := utf8 "\x7b\"received\":"

def text : Doc → Bytes
  | null => utf8 "null"
  | bool b => utf8 (if b then "true" else "false")
  | timedOut => utf8 "\"timed_out\""
  | received d => head ++ (32 :: text d ++ [125])

/-- Read a text of at most the given depth. -/
def read : ℕ → Bytes → Option Doc
  | 0, _ => none
  | depth + 1, b =>
    if b = utf8 "null" then some null
    else if b = utf8 "true" then some (bool true)
    else if b = utf8 "false" then some (bool false)
    else if b = utf8 "\"timed_out\"" then some timedOut
    else if head.isPrefixOf b && b.getLast? = some 125 then
      let body := (b.drop head.length).dropLast
      (read depth (if body.head? = some 32 then body.drop 1 else body)).map received
    else none

def parse (b : Bytes) : Option Doc := read b.length b

lemma read_object (depth : ℕ) {body : Bytes} (blank : Bool) (hb : body.head? ≠ some 32) :
    read (depth + 1) (head ++ ((if blank then [32] else []) ++ body ++ [125])) =
      (read depth body).map received := by
  have hhead : ∀ rest : Bytes, ∀ s : Bytes, s.head? ≠ some 123 → head ++ rest ≠ s := by
    rintro rest s hs rfl
    exact hs rfl
  have hpre : ∀ rest : Bytes, head.isPrefixOf (head ++ rest) = true := by
    intro rest; rw [List.isPrefixOf_iff_prefix]; exact List.prefix_append _ _
  rw [read, if_neg (hhead _ _ (by decide)), if_neg (hhead _ _ (by decide)),
    if_neg (hhead _ _ (by decide)), if_neg (hhead _ _ (by decide)), hpre]
  have hlast : (head ++ ((if blank then [32] else []) ++ body ++ [125])).getLast? = some 125 := by
    rw [← List.append_assoc, List.getLast?_concat]
  rw [hlast, List.drop_left, List.dropLast_concat]
  cases blank <;> simp [hb]

lemma text_head (d : Doc) : (text d).head? ≠ some 32 := by
  cases d with
  | null | timedOut => decide
  | bool b => cases b <;> decide
  | received d => exact fun h => by cases h

lemma text_pos (d : Doc) : 0 < (text d).length := by
  cases d with
  | null | timedOut => decide
  | bool b => cases b <;> decide
  | received d => simp [text]

lemma read_text (d : Doc) (depth : ℕ) (h : (text d).length ≤ depth) :
    read depth (text d) = some d := by
  induction d generalizing depth with
  | null | timedOut => rcases depth with _ | n <;> [cases h; rfl]
  | bool b =>
    rcases depth with _ | n
    · exact absurd (text_pos (bool b)) (by omega)
    · cases b <;> rfl
  | received d ih =>
    rcases depth with _ | n
    · exact absurd (text_pos (received d)) (by omega)
    · have hobj := read_object n true (text_head d)
      rw [ih n (by simp [text] at h; omega)] at hobj
      exact hobj

instance : Jsonb Doc where
  parse := parse
  text := text
  parse_text d := read_text d _ le_rfl
  received := received
  parse_received d := by
    have heq : receivedBytes (text d) = head ++ ([] ++ text d ++ [125]) := by
      simp only [receivedBytes, head, List.append_assoc, List.nil_append]; rfl
    have hlen : (receivedBytes (text d)).length = ((text d).length + 12) + 1 := by
      rw [heq, List.length_append, show head.length = 12 from by decide]; simp; omega
    unfold parse
    rw [hlen, heq]
    have hobj := read_object ((text d).length + 12) false (text_head d)
    rw [read_text d _ (by omega)] at hobj
    exact hobj
  timedOut := timedOut
  received_ne_timedOut _ := Doc.noConfusion

end Doc

end DurablePg
