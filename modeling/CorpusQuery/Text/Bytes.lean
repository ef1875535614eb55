/-! A text is a list of characters addressed by byte offsets into its UTF-8 encoding. An offset
names a place only when it falls between two characters; elsewhere a look-up finds nothing. -/
namespace CorpusQuery

abbrev Text := List Char

namespace Text

def byteLength : Text → Nat
  | [] => 0
  | c :: rest => c.utf8Size + byteLength rest

@[simp] theorem byteLength_nil : byteLength [] = 0 := rfl

@[simp] theorem byteLength_cons (c : Char) (rest : Text) :
    byteLength (c :: rest) = c.utf8Size + byteLength rest := rfl

@[simp] theorem byteLength_append (a b : Text) :
    byteLength (a ++ b) = byteLength a + byteLength b := by
  induction a with
  | nil => simp
  | cons c rest ih => simp [ih,Nat.add_assoc]

theorem byteLength_eq_zero_iff (t : Text) : byteLength t = 0 ↔ t = [] := by
  cases t with
  | nil => simp
  | cons c rest => have := c.utf8Size_pos; simp; omega

def dropBytes? : Nat → Text → Option Text
  | 0, t => some t
  | _ + 1, [] => none
  | n + 1, c :: rest =>
    if c.utf8Size ≤ n + 1 then dropBytes? (n + 1 - c.utf8Size) rest else none

def takeBytes? : Nat → Text → Option Text
  | 0, _ => some []
  | _ + 1, [] => none
  | n + 1, c :: rest =>
    if c.utf8Size ≤ n + 1 then (takeBytes? (n + 1 - c.utf8Size) rest).map (c :: ·) else none

/-- The text between two byte offsets, when both are places of the text in this order. -/
def slice? (t : Text) (start stop : Nat) : Option Text :=
  if start ≤ stop then (t.dropBytes? start).bind (takeBytes? (stop - start)) else none

/-- The character that starts at a byte offset. -/
def charAt? (t : Text) (offset : Nat) : Option Char := (t.dropBytes? offset).bind List.head?

/-- Number of characters before a byte offset, which is cut back to the end of the text; an
offset inside a character counts none. -/
def charsBefore (t : Text) (offset : Nat) : Nat :=
  ((t.takeBytes? (min offset t.byteLength)).getD []).length

theorem dropBytes?_append (a b : Text) : dropBytes? a.byteLength (a ++ b) = some b := by
  induction a with
  | nil => simp [dropBytes?]
  | cons c rest ih =>
    have pos := c.utf8Size_pos
    obtain ⟨n,hn⟩ : ∃ n, byteLength (c :: rest) = n + 1 :=
      ⟨byteLength (c :: rest) - 1, by simp; omega⟩
    have fits : c.utf8Size ≤ n + 1 := by simp at hn; omega
    have left : n + 1 - c.utf8Size = byteLength rest := by simp at hn; omega
    simp [hn,dropBytes?,fits,left,ih]

theorem takeBytes?_append (a b : Text) : takeBytes? a.byteLength (a ++ b) = some a := by
  induction a with
  | nil => simp [takeBytes?]
  | cons c rest ih =>
    have pos := c.utf8Size_pos
    obtain ⟨n,hn⟩ : ∃ n, byteLength (c :: rest) = n + 1 :=
      ⟨byteLength (c :: rest) - 1, by simp; omega⟩
    have fits : c.utf8Size ≤ n + 1 := by simp at hn; omega
    have left : n + 1 - c.utf8Size = byteLength rest := by simp at hn; omega
    simp [hn,takeBytes?,fits,left,ih]

end Text

end CorpusQuery
