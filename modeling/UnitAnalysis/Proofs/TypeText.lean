import UnitAnalysis.Proofs.Spelling

/-!
# Types in words

Messages show a type in words: those for its qualifiers, for each pointer and
reference on the way, and at the end the one for a builtin kind, or for a class or
enum with its name.  Nothing separates the words from a name, and a name may be any
text.  Still no word is the beginning of another one, and only the last word stands
before a name, so that the text of a type can be taken apart in one way only.

Main statement: `Ty.text_eq_text_iff`.
-/

namespace UnitAnalysis

/-! ## Words -/

/-- What the text of a type is made of, up to the name of a class or enum. -/
inductive TypeWord where
  | qualifier (word : Qualifier)
  | pointer
  | reference
  | tag (kind : TagKind)
  | builtin (kind : Builtin)
  deriving DecidableEq, Repr

namespace TypeWord

def text : TypeWord → String
  | .qualifier word => word.text ++ " "
  | .pointer => "pointer to "
  | .reference => "reference to "
  | .tag kind => kind.text ++ " "
  | .builtin kind => kind.text

def chars (w : TypeWord) : List Char :=
  w.text.toList

/-- Is the word the last one of a type? -/
def closes : TypeWord → Bool
  | .tag _ | .builtin _ => true
  | _ => false

def all : List TypeWord :=
  [.qualifier .const, .qualifier .volatile, .pointer, .reference, .tag .classTag, .tag .enumTag,
    .builtin .vi8, .builtin .vi16, .builtin .vi32, .builtin .vi64, .builtin .vr32, .builtin .vr64,
    .builtin .bool, .builtin .void]

theorem mem_all (w : TypeWord) : w ∈ all := by
  cases w with
  | qualifier word => cases word <;> decide
  | pointer | reference => decide
  | tag kind => cases kind <;> decide
  | builtin kind => cases kind <;> decide

/-- No word is the beginning of another one. -/
theorem eq_of_begins {w v : TypeWord} (h : w.chars <+: v.chars) : w = v := by
  have hall : ∀ w ∈ all, ∀ v ∈ all, w.chars <+: v.chars → w = v := by decide +kernel
  exact hall w (mem_all w) v (mem_all v) h

theorem eq_of_append_eq {w v : TypeWord} {cs ds : List Char}
    (h : w.chars ++ cs = v.chars ++ ds) : w = v ∧ cs = ds := by
  have hw : w.chars <+: v.chars ++ ds := ⟨cs, h⟩
  have hv : v.chars <+: v.chars ++ ds := ⟨ds, rfl⟩
  have heq : w = v := by
    rcases List.prefix_or_prefix_of_prefix hw hv with hbegins | hbegins
    · exact eq_of_begins hbegins
    · exact (eq_of_begins hbegins).symm
  subst heq
  exact ⟨rfl, List.append_cancel_left h⟩

end TypeWord

/-- Some words of which the last one, and no other, closes a type. -/
inductive Closed : List TypeWord → Prop where
  | last {w : TypeWord} (hw : w.closes = true) : Closed [w]
  | cons {w : TypeWord} {ws : List TypeWord} (hw : w.closes = false) (hws : Closed ws) :
      Closed (w :: ws)

/-- The words before a name, and the name, are known from the characters of both together. -/
theorem Closed.eq_of_append_eq {ws vs : List TypeWord} {cs ds : List Char} (hws : Closed ws)
    (hvs : Closed vs) (h : ws.flatMap TypeWord.chars ++ cs = vs.flatMap TypeWord.chars ++ ds) :
    ws = vs ∧ cs = ds := by
  induction hws generalizing vs with
  | @last w hw =>
      cases hvs with
      | last => simpa using TypeWord.eq_of_append_eq (by simpa using h)
      | cons hv =>
          obtain ⟨rfl, -⟩ := TypeWord.eq_of_append_eq (by simpa using h)
          rw [hw] at hv
          cases hv
  | @cons w ws hw _ ih =>
      cases hvs with
      | last hv =>
          obtain ⟨rfl, -⟩ := TypeWord.eq_of_append_eq (by simpa using h)
          rw [hw] at hv
          cases hv
      | cons _ hvs =>
          obtain ⟨rfl, hrest⟩ := TypeWord.eq_of_append_eq (by simpa using h)
          obtain ⟨rfl, hname⟩ := ih hvs (by simpa using hrest)
          exact ⟨rfl, hname⟩

/-! ## The words of a type -/

namespace Ty

def words : Ty → List TypeWord
  | .builtin q kind => q.words.map .qualifier ++ [.builtin kind]
  | .pointer q t => q.words.map .qualifier ++ .pointer :: t.words
  | .reference q t => q.words.map .qualifier ++ .reference :: t.words
  | .tag q kind _ _ => q.words.map .qualifier ++ [.tag kind]

/-- The name at the end of the text of a type; a builtin ends with its last word. -/
def nameInText : Ty → String
  | .builtin _ _ => ""
  | .pointer _ t | .reference _ t => t.nameInText
  | .tag _ _ _ name => name

theorem toList_qualsText (q : Qualifiers) :
    (qualsText q).toList = (q.words.map TypeWord.qualifier).flatMap TypeWord.chars := by
  rcases q with ⟨_ | _, _ | _⟩ <;> decide

theorem toList_text (t : Ty) :
    t.text.toList = t.words.flatMap TypeWord.chars ++ t.nameInText.toList := by
  induction t with
  | builtin q kind | tag q kind decl name =>
      simp [text, words, nameInText, toList_qualsText, TypeWord.chars, TypeWord.text]
  | pointer q t ih | reference q t ih =>
      simp [text, words, nameInText, toList_qualsText, TypeWord.chars, TypeWord.text, ih]

theorem closed_append (quals : List Qualifier) {ws : List TypeWord} (h : Closed ws) :
    Closed (quals.map .qualifier ++ ws) := by
  induction quals with
  | nil => exact h
  | cons word quals ih => exact .cons rfl ih

theorem closed_words (t : Ty) : Closed t.words := by
  induction t with
  | builtin q kind => exact closed_append q.words (.last rfl)
  | pointer q t ih => exact closed_append q.words (.cons rfl ih)
  | reference q t ih => exact closed_append q.words (.cons rfl ih)
  | tag q kind decl name => exact closed_append q.words (.last rfl)

/-- The word for the outermost layer, qualifiers aside. -/
def shapeWord : Ty → TypeWord
  | .builtin _ kind => .builtin kind
  | .pointer _ _ => .pointer
  | .reference _ _ => .reference
  | .tag _ kind _ _ => .tag kind

/-- The words for what a pointer or reference leads to. -/
def innerWords : Ty → List TypeWord
  | .pointer _ t | .reference _ t => t.words
  | .builtin _ _ | .tag _ _ _ _ => []

theorem words_eq (t : Ty) :
    t.words = t.quals.words.map .qualifier ++ t.shapeWord :: t.innerWords := by
  cases t <;> rfl

theorem shapeWord_ne_qualifier (t : Ty) (word : Qualifier) : t.shapeWord ≠ .qualifier word := by
  cases t <;> simp [shapeWord]

/-- The outermost layer is known from the words. -/
theorem layer_eq_of_words_eq {a b : Ty} (h : a.words = b.words) :
    a.quals = b.quals ∧ a.shapeWord = b.shapeWord ∧ a.innerWords = b.innerWords := by
  rw [words_eq, words_eq] at h
  have ha := a.shapeWord_ne_qualifier
  have hb := b.shapeWord_ne_qualifier
  revert h
  generalize a.quals = q
  generalize b.quals = r
  rcases q with ⟨_ | _, _ | _⟩ <;> rcases r with ⟨_ | _, _ | _⟩ <;>
    simp [Qualifiers.words, ha, hb, eq_comm]

/-- Equality of types up to the declarations of tags. -/
def SameInWords : Ty → Ty → Prop
  | .builtin q k, .builtin r l => q = r ∧ k = l
  | .pointer q s, .pointer r t => q = r ∧ s.SameInWords t
  | .reference q s, .reference r t => q = r ∧ s.SameInWords t
  | .tag q k _ m, .tag r l _ n => q = r ∧ k = l ∧ m = n
  | _, _ => False

theorem sameInWords_of_words_eq {a b : Ty} (hwords : a.words = b.words)
    (hname : a.nameInText = b.nameInText) : a.SameInWords b := by
  induction a generalizing b with
  | builtin q k =>
      obtain ⟨hquals, hshape, -⟩ := layer_eq_of_words_eq hwords
      cases b with
      | builtin r l =>
          cases hshape
          exact ⟨hquals, rfl⟩
      | pointer | reference | tag => cases hshape
  | tag q k c m =>
      obtain ⟨hquals, hshape, -⟩ := layer_eq_of_words_eq hwords
      cases b with
      | tag r l d n =>
          cases hshape
          exact ⟨hquals, rfl, hname⟩
      | builtin | pointer | reference => cases hshape
  | pointer q s ih =>
      obtain ⟨hquals, hshape, hinner⟩ := layer_eq_of_words_eq hwords
      cases b with
      | pointer r t => exact ⟨hquals, ih hinner hname⟩
      | builtin | reference | tag => cases hshape
  | reference q s ih =>
      obtain ⟨hquals, hshape, hinner⟩ := layer_eq_of_words_eq hwords
      cases b with
      | reference r t => exact ⟨hquals, ih hinner hname⟩
      | builtin | pointer | tag => cases hshape

theorem SameInWords.text_eq {a b : Ty} (h : a.SameInWords b) : a.text = b.text := by
  induction a generalizing b with
  | builtin q k =>
      cases b with
      | builtin r l =>
          obtain ⟨rfl, rfl⟩ := h
          rfl
      | pointer | reference | tag => cases h
  | tag q k c m =>
      cases b with
      | tag r l d n =>
          obtain ⟨rfl, rfl, rfl⟩ := h
          rfl
      | builtin | pointer | reference => cases h
  | pointer q s ih =>
      cases b with
      | pointer r t =>
          obtain ⟨rfl, hinner⟩ := h
          rw [text, text, ih hinner]
      | builtin | reference | tag => cases h
  | reference q s ih =>
      cases b with
      | reference r t =>
          obtain ⟨rfl, hinner⟩ := h
          rw [text, text, ih hinner]
      | builtin | pointer | tag => cases h

/--
Two types have the same text exactly if they agree in all that a text can show:
their layers with their qualifiers, and the builtin kind, or the kind and the name
of the class or enum, at the base.
-/
theorem text_eq_text_iff (a b : Ty) : a.text = b.text ↔ a.SameInWords b := by
  constructor
  · intro h
    have hchars : a.text.toList = b.text.toList := by rw [h]
    rw [toList_text, toList_text] at hchars
    obtain ⟨hwords, hname⟩ := a.closed_words.eq_of_append_eq b.closed_words hchars
    exact sameInWords_of_words_eq hwords (String.toList_inj.mp hname)
  · exact SameInWords.text_eq

end Ty

end UnitAnalysis
