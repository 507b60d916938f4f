import Ripindex.Atoms
import Ripindex.Lib.Offset
import Ripindex.Query.Parser
import Mathlib.Data.List.DropRight

/-!
# Snippets

`snippet.rs`: a line of a file is trimmed, cut to a window of characters around its first
highlight, and rendered with marks around its highlights. A text is the list of its characters;
places in it are offsets in bytes, and a slice between offsets that are no places panics.

## Results

* `makeSnippet_eq` — the window, and the highlights moved into it;
* `render_marks`   — rendering adds marks and nothing else;
* `snippet_exact`  — what is highlighted is what stood under the spans.
-/

namespace Ripindex

/-- A range of bytes. -/
abbrev Span := Nat × Nat

/-- One line of a file with the byte ranges to highlight. -/
structure Snippet where
  lineNo : Nat
  text : List Char
  highlights : List Span
  deriving DecidableEq, Repr

/-- `&text[r]`; `none` is the panic. -/
def slice (text : List Char) (r : Span) : Option (List Char) :=
  Offset.slice Char.utf8Size text r.1 r.2

/-- `text.is_char_boundary(i)`. -/
def isCharBoundary (text : List Char) (i : Nat) : Bool :=
  (Offset.split Char.utf8Size text i).isSome

-- ---------------------------------------------------------------------------
-- The window
-- ---------------------------------------------------------------------------

def trimStart (line : List Char) : List Char := line.dropWhile Query.isWhitespace

def trim (line : List Char) : List Char := (trimStart line).rdropWhile Query.isWhitespace

/-- Number of bytes that `trim` removes at the start. -/
def lead (line : List Char) : Nat := utf8Len line - utf8Len (trimStart line)

/-- The byte offset of every character, and the length. -/
def charBounds (off : Nat) : List Char → List Nat
  | [] => [off]
  | c :: cs => off :: charBounds (off + c.utf8Size) cs

/-- The spans in the trimmed line. The subtraction from the end of a span wraps where that lies
before the trimmed line. -/
def innerSpans (line : List Char) (spans : List Span) : List Span :=
  (spans.filter fun r =>
    lead line ≤ r.1 ∧ lead line ≤ r.2 ∧ r.2 - lead line ≤ utf8Len (trim line)).map fun r =>
      (r.1 - lead line, r.2 - lead line)

/-- The first character of the window of a trimmed line that is too long: the first highlight is
about a quarter of the way in. -/
def startChar (line : List Char) (spans : List Span) (maxWidth : Nat) : Nat :=
  let firstByte := spans.head?.elim 0 Prod.fst
  let firstChar := ((charBounds 0 line).takeWhile fun b => b < firstByte).length
  min (firstChar - maxWidth / 4) (line.length - maxWidth)

/-- Trim, then cut to a window of `maxWidth` characters around the first highlight. -/
def makeSnippet (lineNo : Nat) (line : List Char) (spans : List Span) (maxWidth : Nat) :
    Option Snippet :=
  let spans := innerSpans line spans
  let line := trim line
  let nChars := line.length
  if nChars ≤ maxWidth ∨ maxWidth = 0 then some ⟨lineNo, line, spans⟩
  else do
    let bounds := charBounds 0 line
    let startChar := startChar line spans maxWidth
    let endChar := startChar + maxWidth
    let start ← bounds[startChar]?
    let stop ← bounds[endChar]?
    let front := if 0 < startChar then ['…'] else []
    let back := if endChar < nChars then ['…'] else []
    let cut ← slice line (start, stop)
    let kept := spans.filter fun r => start ≤ r.1 ∧ r.2 ≤ stop
    pure ⟨lineNo, front ++ cut ++ back,
      kept.map fun r => (r.1 - start + utf8Len front, r.2 - start + utf8Len front)⟩

-- ---------------------------------------------------------------------------
-- Rendering
-- ---------------------------------------------------------------------------

/-- The marks before and behind a highlight: ANSI bold red, or brackets. -/
def marks (color : Bool) : List Char × List Char :=
  if color then ("\x1b[1;31m".toList, "\x1b[0m".toList) else (['['], [']'])

/-- The loop of `render`, with what is written so far. -/
def renderFrom (mark : List Char × List Char) (text : List Char) (pos : Nat) (out : List Char) :
    List Span → Option (List Char)
  | [] => do
    let rest ← slice text (pos, utf8Len text)
    pure (out ++ rest)
  | r :: rs =>
    if r.1 < pos ∨ utf8Len text < r.2 ∨ isCharBoundary text r.1 = false then
      renderFrom mark text pos out rs
    else do
      let before ← slice text (pos, r.1)
      let marked ← slice text r
      renderFrom mark text r.2 (out ++ before ++ mark.1 ++ marked ++ mark.2) rs

/-- The text for the terminal; `none` is a panic. -/
def render (s : Snippet) (color : Bool) : Option (List Char) :=
  renderFrom (marks color) s.text 0 [] s.highlights

example : (makeSnippet 1 "  le café est ouvert ".toList [(5, 10)] 10).bind (render · false) =
    some "…e [café] est…".toList := by decide +kernel

-- ---------------------------------------------------------------------------
-- Slices
-- ---------------------------------------------------------------------------

theorem width_utf8Size (cs : List Char) : Offset.width Char.utf8Size cs = utf8Len cs := rfl

theorem slice_eq_some {text m : List Char} {r : Span} :
    slice text r = some m ↔
      ∃ p q, text = p ++ m ++ q ∧ utf8Len p = r.1 ∧ utf8Len p + utf8Len m = r.2 :=
  Offset.slice_eq_some Char.utf8Size_pos

theorem isCharBoundary_iff {text : List Char} {i : Nat} :
    isCharBoundary text i = true ↔ ∃ p q, text = p ++ q ∧ utf8Len p = i := by
  unfold isCharBoundary
  rw [Option.isSome_iff_exists]
  constructor
  · rintro ⟨⟨p, q⟩, h⟩
    exact ⟨p, q, (Offset.split_eq_some Char.utf8Size_pos).mp h⟩
  · rintro ⟨p, q, h⟩
    exact ⟨(p, q), (Offset.split_eq_some Char.utf8Size_pos).mpr h⟩

theorem le_of_slice {text m : List Char} {r : Span} (h : slice text r = some m) :
    r.1 ≤ r.2 ∧ r.2 ≤ utf8Len text := Offset.le_of_slice Char.utf8Size_pos h

/-- A span of the middle part, with the part moved to another place. -/
theorem slice_moved {x y z x' z' : List Char} {r : Span} (hr : r.1 ≤ r.2)
    (hStart : utf8Len x ≤ r.1) (hStop : r.2 ≤ utf8Len x + utf8Len y) :
    slice (x' ++ y ++ z') (r.1 - utf8Len x + utf8Len x', r.2 - utf8Len x + utf8Len x') =
      slice (x ++ y ++ z) r := by
  have hNew : slice (x' ++ y ++ z') (r.1 - utf8Len x + utf8Len x', r.2 - utf8Len x + utf8Len x') =
      slice y (r.1 - utf8Len x, r.2 - utf8Len x) := by
    have hInner := @Offset.slice_inner _ _ Char.utf8Size_pos x' y z'
      (r.1 - utf8Len x + utf8Len x') (r.2 - utf8Len x + utf8Len x') (Nat.le_add_left _ _)
      (by omega) (by simp only [width_utf8Size]; omega)
    simp only [width_utf8Size, Nat.add_sub_cancel] at hInner
    exact hInner
  have hOld : slice (x ++ y ++ z) r = slice y (r.1 - utf8Len x, r.2 - utf8Len x) :=
    Offset.slice_inner Char.utf8Size_pos hStart hr hStop
  rw [hNew, hOld]

-- ---------------------------------------------------------------------------
-- What is rendered
-- ---------------------------------------------------------------------------

/-- Pieces of a text, each plain and then highlighted, with marks around what is highlighted. -/
def marked (mark : List Char × List Char) (pieces : List (List Char × List Char)) : List Char :=
  pieces.flatMap fun p => p.1 ++ mark.1 ++ p.2 ++ mark.2

/-- The text of the pieces. -/
def plain (pieces : List (List Char × List Char)) : List Char :=
  pieces.flatMap fun p => p.1 ++ p.2

/-- The loop writes what is left of the text, with marks around the highlights. -/
theorem renderFrom_marks {mark : List Char × List Char} {front rest out : List Char}
    {highlights : List Span} (hFrom : ∀ h ∈ highlights, utf8Len front ≤ h.1)
    (hAsc : highlights.Pairwise fun r s => r.2 ≤ s.1)
    (hSlice : ∀ h ∈ highlights, (slice (front ++ rest) h).isSome) :
    ∃ pieces tail, rest = plain pieces ++ tail ∧
      renderFrom mark (front ++ rest) (utf8Len front) out highlights =
        some (out ++ marked mark pieces ++ tail) ∧
      highlights.map (slice (front ++ rest)) = pieces.map fun p => some p.2 := by
  induction highlights generalizing front rest out with
  | nil =>
    refine ⟨[], rest, rfl, ?_, rfl⟩
    have hRest : slice (front ++ rest) (utf8Len front, utf8Len (front ++ rest)) = some rest :=
      Offset.slice_to_end Char.utf8Size_pos rfl rfl
    rw [renderFrom, hRest]
    simp [marked]
  | cons h hs ih =>
    obtain ⟨hHere, hLater⟩ := List.pairwise_cons.mp hAsc
    obtain ⟨m, hm⟩ := Option.isSome_iff_exists.mp (hSlice h List.mem_cons_self)
    obtain ⟨p, q, hText, hp, hEnd⟩ := slice_eq_some.mp hm
    have hFirst : utf8Len front ≤ h.1 := hFrom h List.mem_cons_self
    -- The highlight begins behind what is written.
    obtain ⟨between, rfl, hRest⟩ : ∃ z, p = front ++ z ∧ rest = z ++ (m ++ q) :=
      Offset.exists_append_of_width_le Char.utf8Size_pos
        (hText.trans (List.append_assoc _ _ _)) (hFirst.trans hp.ge)
    subst hRest
    have hBefore : slice (front ++ (between ++ (m ++ q))) (utf8Len front, h.1) = some between := by
      refine slice_eq_some.mpr ⟨front, m ++ q, by simp, rfl, ?_⟩
      rw [← hp, utf8Len_append]
    have hSkip : ¬ (h.1 < utf8Len front ∨ utf8Len (front ++ (between ++ (m ++ q))) < h.2 ∨
        isCharBoundary (front ++ (between ++ (m ++ q))) h.1 = false) := by
      have hBoundary : isCharBoundary (front ++ (between ++ (m ++ q))) h.1 = true :=
        isCharBoundary_iff.mpr ⟨front ++ between, m ++ q, by simp, hp⟩
      have hLe := (le_of_slice hm).2
      rw [hBoundary]
      simp only [Bool.true_eq_false, or_false]
      omega
    have hNext : front ++ (between ++ (m ++ q)) = (front ++ between ++ m) ++ q := by simp
    have hPos : h.2 = utf8Len (front ++ between ++ m) := by
      rw [utf8Len_append (front ++ between) m, hEnd]
    obtain ⟨pieces, tail, rfl, hRender, hMap⟩ := @ih (front ++ between ++ m) q
      (out ++ between ++ mark.1 ++ m ++ mark.2) (fun s hs => hPos ▸ hHere s hs) hLater
      (fun s hs => hNext ▸ hSlice s (List.mem_cons_of_mem h hs))
    refine ⟨(between, m) :: pieces, tail, by simp [plain], ?_, ?_⟩
    · rw [renderFrom, if_neg hSkip, hBefore, hm, hNext, hPos]
      simp only [Option.bind_eq_bind, Option.bind_some]
      rw [hRender]
      simp [marked]
    · rw [List.map_cons, hm, hNext, hMap]
      rfl

/-- Rendering ascending highlights adds marks around them and nothing else. -/
theorem render_marks {s : Snippet} (hAsc : s.highlights.Pairwise fun r s => r.2 ≤ s.1)
    (hSlice : ∀ h ∈ s.highlights, (slice s.text h).isSome) (color : Bool) :
    ∃ pieces tail, s.text = plain pieces ++ tail ∧
      render s color = some (marked (marks color) pieces ++ tail) ∧
      s.highlights.map (slice s.text) = pieces.map fun p => some p.2 :=
  @renderFrom_marks (marks color) [] s.text [] s.highlights (fun _ _ => Nat.zero_le _) hAsc hSlice

-- ---------------------------------------------------------------------------
-- What is cut
-- ---------------------------------------------------------------------------

/-- The trimmed line in the line. -/
theorem trim_spec (line : List Char) :
    ∃ front back, line = front ++ trim line ++ back ∧ lead line = utf8Len front := by
  obtain ⟨back, hBack⟩ := List.rdropWhile_prefix Query.isWhitespace (trimStart line)
  refine ⟨line.takeWhile Query.isWhitespace, back, ?_, ?_⟩
  · rw [List.append_assoc]
    show line = _ ++ (List.rdropWhile Query.isWhitespace (trimStart line) ++ back)
    rw [hBack]
    exact List.takeWhile_append_dropWhile.symm
  · have hLine : utf8Len line = utf8Len (line.takeWhile Query.isWhitespace) +
        utf8Len (trimStart line) := by
      rw [← utf8Len_append]
      exact congrArg utf8Len List.takeWhile_append_dropWhile.symm
    rw [lead, hLine, Nat.add_sub_cancel_right]

theorem getElem?_charBounds {cs : List Char} {k : Nat} (h : k ≤ cs.length) (off : Nat) :
    (charBounds off cs)[k]? = some (off + utf8Len (cs.take k)) := by
  induction cs generalizing off k with
  | nil =>
    obtain rfl : k = 0 := Nat.le_zero.mp h
    rfl
  | cons c cs ih =>
    rcases k with _ | k
    · rfl
    · rw [charBounds, List.getElem?_cons_succ, ih (Nat.le_of_succ_le_succ h), List.take_succ_cons]
      simp only [utf8Len, List.map_cons, List.sum_cons, Nat.add_assoc]

/-- What stands for a part of the line that is cut off. -/
def ellipsis (cut : List Char) : List Char := if cut = [] then [] else ['…']

theorem ellipsis_eq_ite {cut : List Char} {p : Prop} [Decidable p] (h : cut ≠ [] ↔ p) :
    ellipsis cut = if p then ['…'] else [] := by
  by_cases hCut : cut = []
  · rw [ellipsis, if_pos hCut, if_neg fun hp => h.mpr hp hCut]
  · rw [ellipsis, if_neg hCut, if_pos (h.mp hCut)]

/-- The span lies in a part of `len` bytes at `off`. -/
def Inside (off len : Nat) (r : Span) : Prop := off ≤ r.1 ∧ r.2 ≤ off + len

instance (off len : Nat) (r : Span) : Decidable (Inside off len r) :=
  inferInstanceAs (Decidable (_ ∧ _))

/-- The span in a part that stands at `off` and is moved to `new`. -/
def moveTo (off new : Nat) (r : Span) : Span := (r.1 - off + new, r.2 - off + new)

/-- The spans in the part `kept` of the line, where it stands in the snippet. -/
def shown (line before kept : List Char) (spans : List Span) : List Span :=
  (spans.filter fun r => Inside (lead line + utf8Len before) (utf8Len kept) r).map
    (moveTo (lead line + utf8Len before) (utf8Len (ellipsis before)))

/-- The trimmed line is cut to `kept`, as far as it is too long. -/
structure Window (line : List Char) (maxWidth : Nat) (before kept after : List Char) : Prop where
  trim_eq : trim line = before ++ kept ++ after
  whole : (trim line).length ≤ maxWidth ∨ maxWidth = 0 → before = [] ∧ after = []
  length_eq : ¬ ((trim line).length ≤ maxWidth ∨ maxWidth = 0) → kept.length = maxWidth

theorem startChar_le (line : List Char) (spans : List Span) (maxWidth : Nat) :
    startChar line spans maxWidth ≤ line.length - maxWidth := min_le_right _ _

/-- The spans of the trimmed line that lie in a part of it, moved with the part. -/
theorem map_innerSpans {line : List Char} {spans : List Span} {off len : Nat} (new : Nat)
    (hSpans : ∀ r ∈ spans, r.1 ≤ r.2) (hIn : off + len ≤ utf8Len (trim line)) :
    (((innerSpans line spans).filter fun r => off ≤ r.1 ∧ r.2 ≤ off + len).map fun r =>
        (r.1 - off + new, r.2 - off + new)) =
      (spans.filter fun r => Inside (lead line + off) len r).map
        (moveTo (lead line + off) new) := by
  have hKept : ∀ r ∈ spans, (decide (off ≤ r.1 - lead line ∧ r.2 - lead line ≤ off + len) &&
      decide (lead line ≤ r.1 ∧ lead line ≤ r.2 ∧ r.2 - lead line ≤ utf8Len (trim line))) =
        decide (Inside (lead line + off) len r) := by
    intro r hr
    have hLe := hSpans r hr
    rw [← Bool.decide_and, decide_eq_decide]
    unfold Inside
    omega
  rw [innerSpans, List.filter_map, List.filter_filter, List.map_map]
  simp only [Function.comp_def]
  rw [List.filter_congr hKept]
  refine List.map_congr_left ?_
  intro r hr
  obtain ⟨-, hInside⟩ := List.mem_filter.mp hr
  obtain ⟨hStart, hStop⟩ : Inside (lead line + off) len r := by simpa using hInside
  have hLe := hSpans r (List.mem_of_mem_filter hr)
  rw [moveTo, Prod.mk.injEq]
  omega

/-- A snippet is a window of the line, with the spans in it. -/
theorem makeSnippet_eq (lineNo : Nat) (line : List Char) {spans : List Span} (maxWidth : Nat)
    (hSpans : ∀ r ∈ spans, r.1 ≤ r.2) :
    ∃ before kept after, Window line maxWidth before kept after ∧
      makeSnippet lineNo line spans maxWidth =
        some ⟨lineNo, ellipsis before ++ kept ++ ellipsis after, shown line before kept spans⟩ := by
  by_cases hWhole : (trim line).length ≤ maxWidth ∨ maxWidth = 0
  · refine ⟨[], trim line, [], ⟨by simp, fun _ => ⟨rfl, rfl⟩, fun h => absurd hWhole h⟩, ?_⟩
    have hText : ellipsis [] ++ trim line ++ ellipsis [] = trim line := by simp [ellipsis]
    have hAll : ((innerSpans line spans).filter fun r => 0 ≤ r.1 ∧ r.2 ≤ 0 + utf8Len (trim line)) =
        innerSpans line spans := by
      refine List.filter_eq_self.mpr ?_
      intro r hr
      obtain ⟨q, hq, rfl⟩ := List.mem_map.mp hr
      have hFits : lead line ≤ q.1 ∧ lead line ≤ q.2 ∧ q.2 - lead line ≤ utf8Len (trim line) := by
        simpa using (List.mem_filter.mp hq).2
      simp only [decide_eq_true_eq]
      omega
    have hMap := @map_innerSpans line spans 0 (utf8Len (trim line)) 0 hSpans (by omega)
    rw [hAll] at hMap
    simp only [Nat.sub_zero, Nat.add_zero, Prod.mk.eta, List.map_id'] at hMap
    rw [makeSnippet, if_pos hWhole, hMap, hText]
    rfl
  · have hLong : maxWidth < (trim line).length ∧ maxWidth ≠ 0 := by omega
    have hStart := startChar_le (trim line) (innerSpans line spans) maxWidth
    generalize hk : startChar (trim line) (innerSpans line spans) maxWidth = k at hStart
    have hEnd : k + maxWidth ≤ (trim line).length := by omega
    -- The three parts of the line.
    have hParts : trim line = (trim line).take k ++ ((trim line).drop k).take maxWidth ++
        (trim line).drop (k + maxWidth) := by
      rw [List.append_assoc, ← List.drop_drop, List.take_append_drop, List.take_append_drop]
    have hTake : (trim line).take (k + maxWidth) =
        (trim line).take k ++ ((trim line).drop k).take maxWidth := List.take_add
    have hFront : ellipsis ((trim line).take k) = if 0 < k then ['…'] else [] := by
      refine ellipsis_eq_ite ?_
      rw [← List.length_pos_iff, List.length_take]
      omega
    have hBack : ellipsis ((trim line).drop (k + maxWidth)) =
        if k + maxWidth < (trim line).length then ['…'] else [] := by
      refine ellipsis_eq_ite ?_
      rw [← List.length_pos_iff, List.length_drop]
      omega
    refine ⟨_, _, _, ⟨hParts, fun h => absurd h hWhole, fun _ => ?_⟩, ?_⟩
    · rw [List.length_take, List.length_drop]
      omega
    have hCut : slice (trim line) (utf8Len ((trim line).take k),
        utf8Len ((trim line).take (k + maxWidth))) = some (((trim line).drop k).take maxWidth) := by
      refine slice_eq_some.mpr ⟨_, _, hParts, rfl, ?_⟩
      rw [hTake, utf8Len_append]
    have hIn : utf8Len ((trim line).take k) + utf8Len (((trim line).drop k).take maxWidth) ≤
        utf8Len (trim line) := by
      have hLen := congrArg utf8Len hParts
      rw [utf8Len_append, utf8Len_append] at hLen
      omega
    have hMap := map_innerSpans (utf8Len (ellipsis ((trim line).take k))) hSpans hIn
    have hStartOff : (charBounds 0 (trim line))[k]? = some (utf8Len ((trim line).take k)) := by
      rw [getElem?_charBounds (by omega), Nat.zero_add]
    have hStopOff : (charBounds 0 (trim line))[k + maxWidth]? =
        some (utf8Len ((trim line).take (k + maxWidth))) := by
      rw [getElem?_charBounds hEnd, Nat.zero_add]
    rw [makeSnippet, if_neg hWhole, hk]
    simp only [hStartOff, hStopOff, hCut, Option.bind_eq_bind, Option.bind_some]
    rw [shown, ← hMap, hFront, hBack, hTake, utf8Len_append]
    rfl

-- ---------------------------------------------------------------------------
-- What is highlighted
-- ---------------------------------------------------------------------------

/-- A span of the window under which the same stands in the snippet. -/
theorem slice_window {line before kept after front back : List Char} {r : Span}
    (hTrim : trim line = before ++ kept ++ after) (hr : r.1 ≤ r.2)
    (hInside : Inside (lead line + utf8Len before) (utf8Len kept) r) :
    slice (front ++ kept ++ back) (moveTo (lead line + utf8Len before) (utf8Len front) r) =
      slice line r := by
  obtain ⟨x, z, hLine, hLead⟩ := trim_spec line
  rw [hTrim] at hLine
  have hSplit : line = (x ++ before) ++ kept ++ (after ++ z) := by
    rw [hLine]
    simp only [List.append_assoc]
  have hOff : lead line + utf8Len before = utf8Len (x ++ before) := by
    rw [utf8Len_append, hLead]
  rw [hOff] at hInside ⊢
  rw [hSplit]
  exact slice_moved hr hInside.1 hInside.2

/-- Moved together, spans stay in their order. -/
theorem pairwise_shown (line before kept : List Char) {spans : List Span}
    (hAsc : spans.Pairwise fun r s => r.2 ≤ s.1) :
    (shown line before kept spans).Pairwise fun r s => r.2 ≤ s.1 := by
  refine List.Pairwise.map _ ?_ (hAsc.filter _)
  intro r s hrs
  unfold moveTo
  show r.2 - _ + _ ≤ s.1 - _ + _
  omega

/-- A snippet is the trimmed line, or a window of it with an ellipsis for each side that is cut.
Its highlights are in order, what stands under each of them stood under a span, and every span in
the window has one; rendering adds marks around them and nothing else. -/
theorem snippet_exact (lineNo : Nat) {line : List Char} {spans : List Span} (maxWidth : Nat)
    (hSpans : ∀ r ∈ spans, (slice line r).isSome)
    (hAsc : spans.Pairwise fun r s => r.2 ≤ s.1) :
    ∃ s before kept after, makeSnippet lineNo line spans maxWidth = some s ∧
      Window line maxWidth before kept after ∧
      s.text = ellipsis before ++ kept ++ ellipsis after ∧
      s.highlights.Pairwise (fun r s => r.2 ≤ s.1) ∧
      (∀ h ∈ s.highlights, ∃ r ∈ spans, ∃ m, slice line r = some m ∧ slice s.text h = some m) ∧
      (∀ r ∈ spans, Inside (lead line + utf8Len before) (utf8Len kept) r →
        ∃ h ∈ s.highlights, h = moveTo (lead line + utf8Len before) (utf8Len (ellipsis before)) r ∧
          slice s.text h = slice line r) ∧
      ∀ color, ∃ pieces tail, s.text = plain pieces ++ tail ∧
        render s color = some (marked (marks color) pieces ++ tail) ∧
        s.highlights.map (slice s.text) = pieces.map fun p => some p.2 := by
  have hLe : ∀ r ∈ spans, r.1 ≤ r.2 := by
    intro r hr
    obtain ⟨m, hm⟩ := Option.isSome_iff_exists.mp (hSpans r hr)
    exact (le_of_slice hm).1
  obtain ⟨before, kept, after, hWindow, hMake⟩ := makeSnippet_eq lineNo line maxWidth hLe
  have hOrder := pairwise_shown line before kept hAsc
  have hSame : ∀ r ∈ spans, Inside (lead line + utf8Len before) (utf8Len kept) r →
      slice (ellipsis before ++ kept ++ ellipsis after)
        (moveTo (lead line + utf8Len before) (utf8Len (ellipsis before)) r) = slice line r :=
    fun r hr hInside => slice_window hWindow.trim_eq (hLe r hr) hInside
  have hUnder : ∀ h ∈ shown line before kept spans,
      ∃ r ∈ spans, ∃ m, slice line r = some m ∧
        slice (ellipsis before ++ kept ++ ellipsis after) h = some m := by
    intro h hh
    obtain ⟨r, hr, rfl⟩ := List.mem_map.mp hh
    obtain ⟨hMem, hInside⟩ := List.mem_filter.mp hr
    obtain ⟨m, hm⟩ := Option.isSome_iff_exists.mp (hSpans r hMem)
    exact ⟨r, hMem, m, hm, (hSame r hMem (by simpa using hInside)).trans hm⟩
  refine ⟨_, before, kept, after, hMake, hWindow, rfl, hOrder, hUnder, ?_, ?_⟩
  · intro r hr hInside
    refine ⟨_, List.mem_map_of_mem (List.mem_filter.mpr ⟨hr, by simpa using hInside⟩), rfl, ?_⟩
    exact hSame r hr hInside
  · refine render_marks hOrder ?_
    intro h hh
    obtain ⟨-, -, m, -, hm⟩ := hUnder h hh
    rw [hm]
    rfl

/-- A line with blanks around it, of more bytes than characters, cut on both sides. -/
theorem snippet_exact_cafe : ∃ s,
    makeSnippet 1 "  le café est ouvert ".toList [(5, 10)] 10 = some s ∧
      ∃ pieces tail, s.text = plain pieces ++ tail ∧
        render s false = some (marked (marks false) pieces ++ tail) := by
  obtain ⟨s, -, -, -, hMake, -, -, -, -, -, hRender⟩ :=
    @snippet_exact 1 "  le café est ouvert ".toList [(5, 10)] 10 (by decide +kernel) (by simp)
  obtain ⟨pieces, tail, hText, hOut, -⟩ := hRender false
  exact ⟨s, hMake, pieces, tail, hText, hOut⟩

end Ripindex
