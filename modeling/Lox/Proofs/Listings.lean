import Mathlib.Data.List.Infix
import Lox.Proofs.Context
import Lox.Proofs.FirstRule

/-!
# Listings lose nothing

At every place of a text one of the rules matches, and takes something, so the spans are the whole
text with its line breaks made normal (`Rule.firstSpan?_cons`, `Span.text_spans`). A listing cuts a
line together with the line feed that ends it, so a carriage return at the end of the line is no
further break (`Text.normalizeBreaks_concat`).

Main statement: `Listing.nothing_lost`.
-/

namespace Lox

namespace Text

/-! ## Line breaks -/

/-- What becomes of the first character of a text: a carriage return in front of a line feed goes,
and any other becomes a line feed. -/
def normalBreak? : List Char → Option Char
  | [] => none
  | c :: cs =>
    if c ≠ '\r' then some c
    else if cs.head? = some '\n' then none
    else some '\n'

theorem normalizeBreaks_cons (c : Char) (cs : List Char) :
    normalizeBreaks (c :: cs) = (normalBreak? (c :: cs)).toList ++ normalizeBreaks cs := by
  by_cases hr : c = '\r'
  · subst hr
    cases cs with
    | nil => rfl
    | cons d ds =>
      by_cases hn : d = '\n'
      · subst hn
        rfl
      · simp [normalizeBreaks, normalBreak?, hn]
  · simp [normalizeBreaks, normalBreak?, hr]

/-- **Line breaks are made normal character by character**, each seen with the one behind it. -/
theorem normalizeBreaks_eq (cs : List Char) :
    normalizeBreaks cs = cs.tails.filterMap normalBreak? := by
  induction cs with
  | nil => rfl
  | cons c cs ih =>
    rw [normalizeBreaks_cons, ih, List.tails_cons, List.filterMap_cons]
    cases normalBreak? (c :: cs) <;> rfl

/-- Two texts are made normal one after the other, unless a line break stands across the seam. -/
theorem normalizeBreaks_append {cs ds : List Char}
    (h : cs.getLast? ≠ some '\r' ∨ ds.head? ≠ some '\n') :
    normalizeBreaks (cs ++ ds) = normalizeBreaks cs ++ normalizeBreaks ds := by
  induction cs with
  | nil => rfl
  | cons c cs ih =>
    have hrest : cs.getLast? ≠ some '\r' ∨ ds.head? ≠ some '\n' := by
      refine h.imp_left fun hl he => hl ?_
      rw [List.getLast?_cons, he]
      rfl
    have hfirst : normalBreak? (c :: (cs ++ ds)) = normalBreak? (c :: cs) := by
      cases cs with
      | cons d cs => rfl
      | nil => by_cases hr : c = '\r' <;> simp_all [normalBreak?]
    rw [List.cons_append, normalizeBreaks_cons, normalizeBreaks_cons, hfirst, ih hrest,
      List.append_assoc]

/-- The line feed that ends a line takes up a carriage return before it. -/
theorem normalizeBreaks_concat (line : List Char) :
    normalizeBreaks (line ++ ['\n']) =
      normalizeBreaks (if line.getLast? = some '\r' then line.dropLast else line) ++ ['\n'] := by
  split
  · rename_i hr
    obtain ⟨body, rfl⟩ : ∃ body, line = body ++ ['\r'] := List.getLast?_eq_some_iff.1 hr
    rw [List.dropLast_concat, List.append_assoc]
    exact normalizeBreaks_append (.inr (by decide))
  · rename_i hr
    exact normalizeBreaks_append (.inl hr)

end Text

namespace Span

/-! ## Spans -/

theorem text_ne_nil_of_mem_cut {span : Span} (cs : List Char) (h : span ∈ cut cs) :
    span.text ≠ [] := by
  fun_induction cut cs with
  | case1 => cases h
  | case2 c cs ih =>
    rcases List.mem_cons.1 h with rfl | h
    · exact text_next_ne_nil c cs
    · exact ih h

end Span

namespace Listing

/-! ## Lines of a listing -/

variable {source : String} {style : Style}

theorem render_of_getElem? {k : Nat} {text : List Char} (h : (lines source)[k]? = some text)
    (inColour : Bool) :
    render source (1 + k : Nat) inColour style =
      gutter (1 + k) ++ String.join ((Span.spans (text ++ ['\n'])).map (paint style inColour)) := by
  unfold render
  rw [if_neg (by omega), Int.toNat_natCast, Nat.add_sub_cancel_left, h]

theorem length_lines (source : String) : (lines source).length = source.toList.count '\n' + 1 :=
  length_splitOn _

theorem gutter_eq (n : Nat) :
    gutter n = String.ofList ((Nat.toDigits 10 n).leftpad 5 ' ') ++ " | " :=
  rfl

theorem paint_inColour : paint style true = fun span =>
    if style span.cls = "" then String.ofList span.text
    else style span.cls ++ String.ofList span.text ++ "\x1b[0m" := by
  funext span
  by_cases hs : style span.cls = "" <;> simp [paint, hs]

/-- There is nothing to show of a line that is not there. -/
theorem render_eq_empty {n : Int} (h : n < 1 ∨ source.toList.count '\n' + 1 < n)
    (inColour : Bool) : render source n inColour style = "" := by
  unfold render
  split
  · rfl
  · have hlong : (lines source).length ≤ n.toNat - 1 := by
      rw [length_lines]
      omega
    rw [List.getElem?_eq_none hlong]

/-- **Listings lose nothing.** Take any text, its line breaks made normal: a carriage return in front
of a line feed is left out, and any other becomes a line feed. At every place some rule matches, and
the first to match takes at least one character; so the spans that the rules make are not empty, and
put together they are the text. Now take any line of a source. Its listing is the number,
right-aligned to five places, a bar, and the line, with its line breaks made normal and a line feed
at the end; a carriage return at the end of the line goes with the line feed. In colour the text of
each span stands between the codes of its class in the style, if there are any, and the code that
ends them. Of lines that the source does not have, nothing is shown. -/
theorem nothing_lost :
    (∀ text : List Char,
      let cs := Text.normalizeBreaks text
      cs = text.tails.filterMap Text.normalBreak? ∧
      (∀ before c rest, ∃ span after, Rule.firstSpan? before (c :: rest) = some (span, after) ∧
        span.text ≠ [] ∧ span.text ++ after = c :: rest) ∧
      Rule.Cuts none cs (Span.spans text) ∧
      (∀ span ∈ Span.spans text, span.text ≠ []) ∧
      (Span.spans text).flatMap Span.text = cs) ∧
    (∀ (source : String) (style : Style) (n : Nat), 1 ≤ n → n ≤ source.toList.count '\n' + 1 →
      ∃ line, (source.toList.splitOn '\n')[n - 1]? = some line ∧
        let number := String.ofList ((Nat.toDigits 10 n).leftpad 5 ' ')
        let body := Text.normalizeBreaks (if line.getLast? = some '\r' then line.dropLast else line)
        let spans := Span.spans (line ++ ['\n'])
        spans.flatMap Span.text = body ++ ['\n'] ∧
        render source n false style = number ++ " | " ++ String.ofList body ++ "\n" ∧
        render source n true style = number ++ " | " ++ String.join (spans.map fun span =>
          if style span.cls = "" then String.ofList span.text
          else style span.cls ++ String.ofList span.text ++ "\x1b[0m")) ∧
    ∀ (source : String) (style : Style) (inColour : Bool) (n : Int),
      n < 1 ∨ source.toList.count '\n' + 1 < n → render source n inColour style = "" := by
  refine ⟨fun text => ?_, fun source style n hn hlast => ?_, fun _ _ inColour _ hn =>
    render_eq_empty hn inColour⟩
  · refine ⟨Text.normalizeBreaks_eq text, fun before c rest => ?_, Rule.cuts_cut _ _,
      fun span => Span.text_ne_nil_of_mem_cut _,
      Span.text_spans text⟩
    exact ⟨_, _, Rule.firstSpan?_cons before c rest, Span.text_next_ne_nil c rest,
      Span.next_append c rest⟩
  · obtain ⟨k, rfl⟩ := Nat.exists_eq_add_of_le hn
    have hlt : k < (lines source).length := by
      rw [length_lines]
      omega
    have hline := List.getElem?_eq_getElem hlt
    have hspans := Span.text_spans ((lines source)[k] ++ ['\n'])
    rw [Text.normalizeBreaks_concat] at hspans
    refine ⟨_, by rwa [Nat.add_sub_cancel_left], hspans, ?_, ?_⟩
    · rw [render_of_getElem? hline, join_paint, Text.normalizeBreaks_concat, String.ofList_append,
        ← String.append_assoc, gutter_eq]
    · rw [render_of_getElem? hline, gutter_eq, paint_inColour]

/-- The second of three lines, which ends in a carriage return, and a line behind the last. -/
theorem nothing_lost_of_second_line :
    let source := "var a;\nnil\t@\r\n"
    (1 ≤ 2 ∧ 2 ≤ source.toList.count '\n' + 1) ∧
      source.toList.count '\n' + 1 < (4 : Int) ∧
      render source 2 false = "    2 | nil\t@\n" ∧ render source 2 true =
        "    2 | \x1b[38;5;81mnil\x1b[0m\x1b[38;5;231m\t\x1b[0m\x1b[38;5;89m\x1b[48;5;232m@\x1b[0m" ++
          "\x1b[38;5;231m\n\x1b[0m" ∧
      render source 4 true = "" := by
  intro source
  have hfirst : 1 ≤ 2 := by decide
  have hlast : 2 ≤ source.toList.count '\n' + 1 := by decide
  have hbehind : source.toList.count '\n' + 1 < (4 : Int) := by decide
  obtain ⟨line, hline, -, hplain, hcolour⟩ := nothing_lost.2.1 source monokai 2 hfirst hlast
  have hline' : line = "nil\t@\r".toList := by
    have hsecond : (source.toList.splitOn '\n')[1]? = some "nil\t@\r".toList := by decide
    exact Option.some.inj (hline.symm.trans hsecond)
  subst hline'
  refine ⟨⟨hfirst, hlast⟩, hbehind, hplain.trans ?_, hcolour.trans ?_,
    nothing_lost.2.2 source monokai true 4 (.inr hbehind)⟩
  · decide +kernel
  · decide +kernel

end Listing

end Lox
