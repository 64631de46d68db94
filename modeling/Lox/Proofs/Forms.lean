import Mathlib.Algebra.Group.Nat.Defs
import Lox.Proofs.Cutting
import Lox.Tree.Printer

/-!
# Forms

A debug form is a word, a quoted text, or a list in parentheses (`Debug.Core`), with property names
after points behind it (`Debug.Form`). Its text can be read in one way only, and its end is seen
from its beginning (`Debug.Form.text_append_inj`): words have none of the characters that set the
parts of a form apart, and no escape begins with the quote that closes a quoted text.
-/

namespace Lox

/-! ## Quoted text -/

namespace Text

/-- The value of a lower-case hexadecimal digit. -/
def hexValue (d : Char) : Nat := d.toNat - if d.isDigit then 48 else 87

/-- The number that hexadecimal digits spell. -/
def ofHexDigits (ds : List Char) : Nat := ds.foldl (fun n d => 16 * n + hexValue d) 0

theorem ofHexDigits_concat (ds : List Char) (d : Char) :
    ofHexDigits (ds ++ [d]) = 16 * ofHexDigits ds + hexValue d := by
  rw [ofHexDigits, List.foldl_append]
  rfl

theorem hexValue_digitChar : ∀ d < 16, hexValue d.digitChar = d := by decide

theorem ofHexDigits_toDigits (n : Nat) : ofHexDigits (Nat.toDigits 16 n) = n := by
  induction n using Nat.strong_induction_on with
  | _ n ih =>
  rw [Nat.toDigits_eq_if (by decide)]
  split
  · rename_i hn
    exact (Nat.zero_add _).trans (hexValue_digitChar n hn)
  · rw [ofHexDigits_concat, ih (n / 16) (by omega), hexValue_digitChar _ (Nat.mod_lt n (by decide))]
    omega

theorem ofHexDigits_hexDigits (width n : Nat) : ofHexDigits (hexDigits width n) = n := by
  have hzeros : ∀ k, (List.replicate k '0').foldl (fun n d => 16 * n + hexValue d) 0 = 0 := by
    intro k
    induction k with
    | zero => rfl
    | succ k ih => exact ih
  rw [hexDigits, ofHexDigits, List.foldl_append, hzeros]
  exact ofHexDigits_toDigits n

theorem length_hexDigits {width n : Nat} (hw : 0 < width) (hn : n < 16 ^ width) :
    (hexDigits width n).length = width := by
  have hlen := (Nat.length_toDigits_le_iff (by decide) hw).2 hn
  rw [hexDigits, List.length_append, List.length_replicate]
  omega

/-- The character that a short escape stands for. -/
def shortCode : Char → Nat
  | '"' => 0x22
  | '\\' => 0x5C
  | 'a' => 0x07
  | 'b' => 0x08
  | 'f' => 0x0C
  | 'n' => 0x0A
  | 'r' => 0x0D
  | 't' => 0x09
  | _ => 0x0B

/-- How many digits follow the letter of a long escape. -/
def hexWidth? : Char → Option Nat
  | 'x' => some 2
  | 'u' => some 4
  | 'U' => some 8
  | _ => none

theorem of_shortEscape? {c e : Char} (h : shortEscape? c = some e) :
    c.toNat = shortCode e ∧ hexWidth? e = none := by
  unfold shortEscape? at h
  split at h <;> cases h <;> exact ⟨by assumption, rfl⟩

/-- The ways in which a character stands in a quoted text. -/
inductive Escaped : Char → List Char → Prop
  | plain {c} (hq : c ≠ '"') (hs : c ≠ '\\') : Escaped c [c]
  | short {c e} (h : shortEscape? c = some e) : Escaped c ['\\', e]
  | long {c letter width} (hl : hexWidth? letter = some width) (hw : 0 < width)
      (hc : c.toNat < 16 ^ width) : Escaped c ('\\' :: letter :: hexDigits width c.toNat)

theorem escaped_escape (c : Char) : Escaped c (escape c) := by
  unfold escape
  split
  · rename_i h
    exact .short h
  · rename_i h
    split
    · refine .plain ?_ ?_ <;>
      · rintro rfl
        exact absurd h (by decide)
    split
    · exact .long rfl (by decide) (by omega)
    split
    · exact .long rfl (by decide) (by omega)
    · have hvalid : c.toNat < 0x110000 := c.valid.elim (fun h => h.trans (by decide)) (·.2)
      exact .long rfl (by decide) (by omega)

theorem Escaped.head?_ne {c : Char} {cs : List Char} (h : Escaped c cs) (more more' : List Char) :
    cs ++ more ≠ '"' :: more' := by
  intro he
  cases h with
  | plain hq => exact hq (List.cons.inj he).1
  | short | long => exact absurd (List.cons.inj he).1 (by decide)

/-- An escape says where it ends. -/
theorem Escaped.append_inj {c c' : Char} {cs cs' more more' : List Char} (h : Escaped c cs)
    (h' : Escaped c' cs') (he : cs ++ more = cs' ++ more') : c = c' ∧ more = more' := by
  cases h with
  | plain _ hs =>
    cases h' with
    | plain => exact List.cons.inj he
    | short | long => exact absurd (List.cons.inj he).1 hs
  | short h =>
    obtain ⟨hcode, hnone⟩ := of_shortEscape? h
    cases h' with
    | plain _ hs => exact absurd (List.cons.inj he).1.symm hs
    | short h' =>
      obtain ⟨rfl, hmore⟩ := List.cons.inj (List.cons.inj he).2
      exact ⟨Char.toNat_inj.1 (hcode.trans (of_shortEscape? h').1.symm), hmore⟩
    | long hl =>
      obtain ⟨rfl, -⟩ := List.cons.inj (List.cons.inj he).2
      rw [hnone] at hl
      cases hl
  | long hl hw hc =>
    cases h' with
    | plain _ hs => exact absurd (List.cons.inj he).1.symm hs
    | short h' =>
      obtain ⟨rfl, -⟩ := List.cons.inj (List.cons.inj he).2
      rw [(of_shortEscape? h').2] at hl
      cases hl
    | long hl' _ hc' =>
      obtain ⟨rfl, hdigits⟩ := List.cons.inj (List.cons.inj he).2
      rw [hl] at hl'
      cases hl'
      have hlen := (length_hexDigits hw hc).trans (length_hexDigits hw hc').symm
      obtain ⟨hdigits, hmore⟩ := List.append_inj hdigits hlen
      have hcode := congrArg ofHexDigits hdigits
      rw [ofHexDigits_hexDigits, ofHexDigits_hexDigits] at hcode
      exact ⟨Char.toNat_inj.1 hcode, hmore⟩

theorem escapes_append_inj : ∀ {cs cs' more more' : List Char},
    cs.flatMap escape ++ '"' :: more = cs'.flatMap escape ++ '"' :: more' → cs = cs' ∧ more = more'
  | [], [], _, _, h => ⟨rfl, (List.cons.inj h).2⟩
  | [], c' :: _, _, _, h => by
    rw [List.flatMap_cons, List.append_assoc] at h
    exact absurd h.symm ((escaped_escape c').head?_ne _ _)
  | c :: _, [], _, _, h => by
    rw [List.flatMap_cons, List.append_assoc] at h
    exact absurd h ((escaped_escape c).head?_ne _ _)
  | c :: cs, c' :: cs', more, more', h => by
    simp only [List.flatMap_cons, List.append_assoc] at h
    obtain ⟨rfl, hcs⟩ := (escaped_escape c).append_inj (escaped_escape c') h
    obtain ⟨rfl, hmore⟩ := escapes_append_inj hcs
    exact ⟨rfl, hmore⟩

theorem toList_quote (s : String) : (quote s).toList = '"' :: (s.toList.flatMap escape ++ ['"']) := by
  rw [quote, String.toList_ofList]
  rfl

/-- **A quoted text is read in one way**, and says where it ends. -/
theorem quote_append_inj {s s' : String} {more more' : List Char}
    (h : (quote s).toList ++ more = (quote s').toList ++ more') : s = s' ∧ more = more' := by
  simp only [toList_quote, List.cons_append, List.append_assoc, List.nil_append] at h
  obtain ⟨hs, hmore⟩ := escapes_append_inj (List.cons.inj h).2
  exact ⟨String.toList_inj.1 hs, hmore⟩

end Text

/-! ## Forms -/

namespace Debug

/-- Something with property names behind it, each after a point. -/
structure Dotted (α : Type) where
  core : α
  path : List String := []

/-- What is written without blanks, or between parentheses. A list has a name in front of it only if
it is the heading of a function. -/
inductive Core where
  | word (w : String)
  | quoted (s : String)
  | list (name head : String) (parts : List (Dotted Core))

abbrev Form := Dotted Core

def pathText (path : List String) : List Char := path.flatMap fun p => '.' :: p.toList

/-- The word that a form begins with. -/
def Core.front : Core → String
  | word w => w
  | quoted _ => ""
  | list name _ _ => name

mutual

/-- The text behind the word that a form begins with. -/
def Core.back : Core → List Char
  | .word _ => []
  | .quoted s => (Text.quote s).toList
  | .list _ head parts => '(' :: (head.toList ++ (Form.spaced parts ++ [')']))

def Form.text : Form → List Char
  | ⟨core, path⟩ => core.front.toList ++ (core.back ++ pathText path)

/-- Forms with a space in front of each. -/
def Form.spaced : List Form → List Char
  | [] => []
  | f :: fs => ' ' :: (Form.text f ++ Form.spaced fs)

end

/-! ## Proper forms -/

/-- The characters of words. -/
def isPlain (a : Char) : Bool := a != ' ' && a != '(' && a != ')' && a != '.' && a != '"'

def Plain (w : String) : Prop := ∀ a ∈ w.toList, isPlain a = true

instance : DecidablePred Plain := fun _ => decidable_of_iff _ List.all_eq_true

/-- The characters of heads, which a space or the closing parenthesis follows. -/
def isHead (a : Char) : Bool := a != ' ' && a != ')'

def IsHead (w : String) : Prop := ∀ a ∈ w.toList, isHead a = true

instance : DecidablePred IsHead := fun _ => decidable_of_iff _ List.all_eq_true

mutual

def Core.Proper : Core → Prop
  | .word w => Plain w
  | .quoted _ => True
  | .list name head parts =>
    Plain name ∧ IsHead head ∧ Form.ProperAll parts

def Form.Proper : Form → Prop
  | ⟨core, path⟩ => core.Proper ∧ ∀ p ∈ path, Plain p

def Form.ProperAll : List Form → Prop
  | [] => True
  | f :: fs => Form.Proper f ∧ Form.ProperAll fs

end

theorem Core.Proper.front {c : Core} (h : c.Proper) : Plain c.front := by
  cases c with
  | word => exact h
  | quoted => exact fun a ha => by cases ha
  | list => exact h.1

/-! ## Unique reading -/

/-- The text begins with one of some marks, if with anything. -/
def StartsIn (marks : List Char) (cs : List Char) : Prop := ∀ a ∈ cs.head?, a ∈ marks

theorem append_inj_of_stops {p : Char → Bool} {cs cs' more more' : List Char}
    (hcs : ∀ a ∈ cs, p a = true) (hcs' : ∀ a ∈ cs', p a = true)
    (hm : ∀ a ∈ more.head?, p a = false) (hm' : ∀ a ∈ more'.head?, p a = false)
    (h : cs ++ more = cs' ++ more') : cs = cs' ∧ more = more' := by
  have htake := congrArg (List.takeWhile p) h
  have hdrop := congrArg (List.dropWhile p) h
  rw [List.takeWhile_append_of_pos hcs, List.takeWhile_append_of_pos hcs',
    Piece.takeWhile_of_stops hm, Piece.takeWhile_of_stops hm', List.append_nil,
    List.append_nil] at htake
  rw [List.dropWhile_append_of_pos hcs, List.dropWhile_append_of_pos hcs',
    Piece.dropWhile_of_stops hm, Piece.dropWhile_of_stops hm'] at hdrop
  exact ⟨htake, hdrop⟩

theorem StartsIn.stops {marks cs : List Char} (h : StartsIn marks cs) {p : Char → Bool}
    (hm : marks.any p = false) : ∀ a ∈ cs.head?, p a = false :=
  fun a ha => Bool.eq_false_iff.2 (List.any_eq_false.1 hm a (h a ha))

theorem plain_append_inj {w w' : String} {more more' : List Char} (hw : Plain w) (hw' : Plain w')
    (hm : ∀ a ∈ more.head?, isPlain a = false) (hm' : ∀ a ∈ more'.head?, isPlain a = false)
    (h : w.toList ++ more = w'.toList ++ more') : w = w' ∧ more = more' := by
  obtain ⟨hw, hmore⟩ := append_inj_of_stops hw hw' hm hm' h
  exact ⟨String.toList_inj.1 hw, hmore⟩

/-- What follows a whole form. -/
abbrev Ends : List Char → Prop := StartsIn [' ', ')']

theorem ends_spaced (fs : List Form) (more : List Char) : Ends (Form.spaced fs ++ ')' :: more) := by
  intro a ha
  cases fs <;> cases ha <;> decide

theorem startsIn_path (path : List String) {more : List Char} (hm : Ends more) :
    StartsIn ['.', ' ', ')'] (pathText path ++ more) := by
  intro a ha
  cases path with
  | nil => exact List.mem_cons_of_mem _ (hm a ha)
  | cons p ps =>
    cases ha
    exact List.mem_cons_self

theorem path_append_inj : ∀ {path path' : List String} {more more' : List Char},
    (∀ p ∈ path, Plain p) → (∀ p ∈ path', Plain p) → Ends more → Ends more' →
    pathText path ++ more = pathText path' ++ more' → path = path' ∧ more = more'
  | [], [], _, _, _, _, _, _, h => ⟨rfl, h⟩
  | [], _ :: _, _, _, _, _, hm, _, h => by
    change _ = '.' :: _ at h
    have hdot := hm '.' (congrArg List.head? h)
    exact absurd hdot (by decide)
  | _ :: _, [], _, _, _, _, _, hm', h => by
    change '.' :: _ = _ at h
    have hdot := hm' '.' (congrArg List.head? h.symm)
    exact absurd hdot (by decide)
  | p :: ps, p' :: ps', more, more', hp, hp', hm, hm', h => by
    have hh : p.toList ++ (pathText ps ++ more) = p'.toList ++ (pathText ps' ++ more') := by
      simpa [pathText] using h
    obtain ⟨rfl, hrest⟩ := plain_append_inj (hp p List.mem_cons_self) (hp' p' List.mem_cons_self)
      ((startsIn_path ps hm).stops (by decide)) ((startsIn_path ps' hm').stops (by decide)) hh
    obtain ⟨rfl, hmore⟩ := path_append_inj (fun q hq => hp q (List.mem_cons_of_mem _ hq))
      (fun q hq => hp' q (List.mem_cons_of_mem _ hq)) hm hm' hrest
    exact ⟨rfl, hmore⟩

/-- What follows a form without the property names behind it. -/
abbrev Pauses : List Char → Prop := StartsIn ['.', ' ', ')']

theorem Core.back_not_plain (c : Core) {more : List Char} (hm : Pauses more) :
    ∀ a ∈ (c.back ++ more).head?, isPlain a = false := by
  cases c with
  | word => exact hm.stops (by decide)
  | quoted s =>
    rw [Core.back, Text.toList_quote]
    rintro a ⟨⟩
    rfl
  | list =>
    rw [Core.back]
    rintro a ⟨⟩
    rfl

mutual

/-- The first mark behind the front tells words, quoted texts and lists apart. -/
theorem Core.back_append_inj : ∀ (c c' : Core) (more more' : List Char), c.Proper → c'.Proper →
    Pauses more → Pauses more' → c.front = c'.front → c.back ++ more = c'.back ++ more' →
    c = c' ∧ more = more'
  | .word _, .word _ => fun _ _ _ _ _ _ hf h => ⟨congrArg Core.word hf, h⟩
  | .quoted _, .quoted _ => fun _ _ _ _ _ _ _ h =>
    (Text.quote_append_inj h).imp_left (congrArg Core.quoted)
  | .list name head parts, .list name' head' parts' => by
    intro more more' hc hc' _ _ hf h
    simp only [Core.back, List.cons_append, List.append_assoc, List.nil_append] at h
    obtain ⟨hhead, hparts⟩ := append_inj_of_stops hc.2.1 hc'.2.1
      ((ends_spaced parts more).stops (by decide)) ((ends_spaced parts' more').stops (by decide))
      (List.cons.inj h).2
    obtain ⟨hparts, hmore⟩ := Form.spaced_append_inj hc.2.2 hc'.2.2 hparts
    exact ⟨by rw [show name = name' from hf, String.toList_inj.1 hhead, hparts], hmore⟩
  | .word _, .quoted _ => by
    intro more more' _ _ hm _ _ h
    rw [Core.back, Core.back, Text.toList_quote] at h
    exact absurd (hm '"' (congrArg List.head? h)) (by decide)
  | .word _, .list .. => by
    intro more more' _ _ hm _ _ h
    rw [Core.back, Core.back] at h
    exact absurd (hm '(' (congrArg List.head? h)) (by decide)
  | .quoted _, .word _ => by
    intro more more' _ _ _ hm _ h
    rw [Core.back, Core.back, Text.toList_quote] at h
    exact absurd (hm '"' (congrArg List.head? h.symm)) (by decide)
  | .list .., .word _ => by
    intro more more' _ _ _ hm _ h
    rw [Core.back, Core.back] at h
    exact absurd (hm '(' (congrArg List.head? h.symm)) (by decide)
  | .quoted _, .list .. => by
    intro more more' _ _ _ _ _ h
    rw [Core.back, Core.back, Text.toList_quote] at h
    exact absurd (List.cons.inj h).1 (by decide)
  | .list .., .quoted _ => by
    intro more more' _ _ _ _ _ h
    rw [Core.back, Core.back, Text.toList_quote] at h
    exact absurd (List.cons.inj h).1 (by decide)

/-- **A form is read in one way**, and says where it ends. -/
theorem Form.text_append_inj : ∀ {f f' : Form} {more more' : List Char}, Form.Proper f →
    Form.Proper f' → Ends more → Ends more' → Form.text f ++ more = Form.text f' ++ more' →
    f = f' ∧ more = more'
  | ⟨c, path⟩, ⟨c', path'⟩, more, more', hf, hf', hm, hm', h => by
    simp only [Form.text, List.append_assoc] at h
    have hpause := startsIn_path path hm
    have hpause' := startsIn_path path' hm'
    obtain ⟨hfront, hback⟩ := plain_append_inj hf.1.front hf'.1.front (c.back_not_plain hpause)
      (c'.back_not_plain hpause') h
    obtain ⟨rfl, hpath⟩ := Core.back_append_inj c c' _ _ hf.1 hf'.1 hpause hpause' hfront hback
    obtain ⟨rfl, hmore⟩ := path_append_inj hf.2 hf'.2 hm hm' hpath
    exact ⟨rfl, hmore⟩

theorem Form.spaced_append_inj : ∀ {fs fs' : List Form} {more more' : List Char},
    Form.ProperAll fs → Form.ProperAll fs' →
    Form.spaced fs ++ ')' :: more = Form.spaced fs' ++ ')' :: more' → fs = fs' ∧ more = more'
  | [], [], _, _, _, _, h => ⟨rfl, (List.cons.inj h).2⟩
  | [], _ :: _, _, _, _, _, h => absurd (List.cons.inj h).1 (by decide)
  | _ :: _, [], _, _, _, _, h => absurd (List.cons.inj h).1 (by decide)
  | f :: fs, f' :: fs', more, more', hf, hf', h => by
    simp only [Form.spaced, List.cons_append, List.append_assoc] at h
    obtain ⟨rfl, hrest⟩ := Form.text_append_inj hf.1 hf'.1 (ends_spaced fs more)
      (ends_spaced fs' more') (List.cons.inj h).2
    obtain ⟨rfl, hmore⟩ := Form.spaced_append_inj hf.2 hf'.2 hrest
    exact ⟨rfl, hmore⟩

end

end Debug

end Lox
