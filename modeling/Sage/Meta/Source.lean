import Mathlib.Data.List.Sort
import Sage.Library.Text
import Sage.Meta.Document

/-!
# Meta — Rust source as text

Positions in a source are byte offsets of its characters.

* `slice` — the text between two positions.
* `Lines` — the lines of a source, and the line of a position.
* `lineComments` — the line comments of a source, next to the literals of its tokens.
-/

namespace Sage.Meta

open Text

/-- The text between two positions. -/
def slice (source : List Char) (span : Span) : List Char :=
  takeBytes (span.stop - span.start) (dropBytes span.start source)

/-! ### Lines -/

/-- A line starts after each newline with text behind it. -/
@[grind =] def lineStarts (len : Nat) : Nat → List Char → List Nat
  | _, [] => []
  | at_, c :: text =>
      let starts := lineStarts len (at_ + c.utf8Size) text
      if c = '\n' ∧ at_ + 1 < len then (at_ + 1) :: starts else starts

structure Lines where
  starts : List Nat
  len : Nat

namespace Lines

def new (source : List Char) : Lines :=
  { starts := 0 :: lineStarts (byteLength source) 0 source
    len := byteLength source }

def count (lines : Lines) : Nat := lines.starts.length

/-- The number of a position's line, from 1 on. -/
def number (lines : Lines) (offset : Nat) : Nat :=
  (lines.starts.takeWhile fun start => start ≤ offset).length

@[grind =] def start (lines : Lines) (line : Nat) : Nat := lines.starts[line - 1]?.getD lines.len

@[grind =] def stop (lines : Lines) (line : Nat) : Nat := lines.starts[line]?.getD lines.len

end Lines

/-! ### Comments -/

structure Comment where
  span : Span
deriving DecidableEq

namespace Comment

def text (comment : Comment) (source : List Char) : List Char :=
  slice source ⟨comment.span.start + 2, comment.span.stop⟩

/-- Nothing stands before the comment on its line. -/
def standalone (comment : Comment) (source : List Char) : Bool :=
  ((takeBytes comment.span.start source).reverse.takeWhile (· ≠ '\n')).all isWhitespace

end Comment

inductive ScanMode where
  | code
  | block (depth : Nat)
  | line

/-- What a line comment is, unless it documents an item. -/
@[grind =] def commentAt (at_ : Nat) (rest : List Char) : List Comment :=
  if rest.head? = some '/' ∨ rest.head? = some '!' then []
  else [⟨⟨at_, at_ + 2 + byteLength (rest.takeWhile (· ≠ '\n'))⟩⟩]

/-- The scan passes over block comments, which nest, and over literals.  `rest` says how many
characters of a delimiter are still to come. -/
@[grind =] def scanComments : ScanMode → Nat → List Span → Nat → List Char → List Comment
  | _, _, _, _, [] => []
  | mode, rest + 1, literals, at_, c :: text =>
      scanComments mode rest literals (at_ + c.utf8Size) text
  | .block depth, 0, literals, at_, c :: text =>
      if c = '/' ∧ text.head? = some '*' then
        scanComments (.block (depth + 1)) 1 literals (at_ + c.utf8Size) text
      else if c = '*' ∧ text.head? = some '/' then
        let mode := if depth = 1 then .code else .block (depth - 1)
        scanComments mode 1 literals (at_ + c.utf8Size) text
      else scanComments (.block depth) 0 literals (at_ + c.utf8Size) text
  | .line, 0, literals, at_, c :: text =>
      scanComments (if c = '\n' then .code else .line) 0 literals (at_ + c.utf8Size) text
  | .code, 0, literals, at_, c :: text =>
      let literals := literals.dropWhile fun literal => literal.stop ≤ at_
      if literals.head?.any fun literal => literal.start ≤ at_ then
        scanComments .code 0 literals (at_ + c.utf8Size) text
      else if c = '/' ∧ text.head? = some '*' then
        scanComments (.block 1) 1 literals (at_ + c.utf8Size) text
      else if c = '/' ∧ text.head? = some '/' then
        commentAt at_ text.tail ++ scanComments .line 0 literals (at_ + c.utf8Size) text
      else scanComments .code 0 literals (at_ + c.utf8Size) text

/-- The first line of a script is not Rust. -/
def hasShebang (source : List Char) : Bool :=
  match source with
  | '#' :: '!' :: rest => (trimStart rest).head? ≠ some '['
  | _ => false

/-- `literals` are the literals among the tokens of the source. -/
def lineComments (source : List Char) (literals : List Span) : List Comment :=
  let literals := literals.insertionSort fun a b => a.start ≤ b.start
  if hasShebang source then
    let script := source.takeWhile (· ≠ '\n')
    scanComments .code 0 literals (byteLength script) (source.dropWhile (· ≠ '\n'))
  else scanComments .code 0 literals 0 source

theorem slice_append (before text after : List Char) :
    slice (before ++ (text ++ after)) ⟨byteLength before, byteLength before + byteLength text⟩ =
      text := by
  rw [slice, Nat.add_sub_cancel_left, dropBytes_append, takeBytes_append]

/-! ### What the comments are -/

/-- A comment in a text that starts at an offset: from its slashes to the end of the line. -/
def IsComment (at_ : Nat) (text : List Char) (comment : Comment) : Prop :=
  ∃ before body after, text = before ++ '/' :: '/' :: (body ++ after) ∧
    comment.span.start = at_ + byteLength before ∧
    comment.span.stop = comment.span.start + 2 + byteLength body ∧ '\n' ∉ body ∧
    (after = [] ∨ ∃ rest, after = '\n' :: rest)

/-- A comment ends with its line, and another one is on a later line. -/
def OnLaterLine (at_ : Nat) (text : List Char) (comment comment' : Comment) : Prop :=
  ∃ before rest, text = before ++ '\n' :: rest ∧ comment.span.stop = at_ + byteLength before ∧
    comment.span.stop + 1 ≤ comment'.span.start

theorem IsComment.cons {at_ : Nat} {c : Char} {text : List Char} {comment : Comment}
    (h : IsComment (at_ + c.utf8Size) text comment) : IsComment at_ (c :: text) comment := by
  obtain ⟨before, body, after, rfl, hstart, h⟩ := h
  exact ⟨c :: before, body, after, rfl, by rw [hstart, byteLength_cons, Nat.add_assoc], h⟩

theorem OnLaterLine.cons {at_ : Nat} {c : Char} {text : List Char} {comment comment' : Comment}
    (h : OnLaterLine (at_ + c.utf8Size) text comment comment') :
    OnLaterLine at_ (c :: text) comment comment' := by
  obtain ⟨before, rest, rfl, hstop, h⟩ := h
  exact ⟨c :: before, rest, rfl, by rw [hstop, byteLength_cons, Nat.add_assoc], h⟩

/-- What is known of the comments of a text. -/
structure AreComments (at_ : Nat) (text : List Char) (comments : List Comment) : Prop where
  each : ∀ comment ∈ comments, IsComment at_ text comment
  apart : comments.Pairwise (OnLaterLine at_ text)

theorem AreComments.cons {at_ : Nat} {c : Char} {text : List Char} {comments : List Comment}
    (h : AreComments (at_ + c.utf8Size) text comments) : AreComments at_ (c :: text) comments :=
  ⟨fun comment hcomment => (h.each comment hcomment).cons, h.apart.imp OnLaterLine.cons⟩

/-- Every step of the scan goes on behind the character that it reads. -/
theorem scanComments_cons (mode : ScanMode) (rest : Nat) (literals : List Span) (at_ : Nat)
    (c : Char) (text : List Char) : ∃ mode' rest' literals',
    scanComments mode rest literals at_ (c :: text) =
        scanComments mode' rest' literals' (at_ + c.utf8Size) text ∨
      c = '/' ∧ text.head? = some '/' ∧ mode' = .line ∧ rest' = 0 ∧
        scanComments mode rest literals at_ (c :: text) = commentAt at_ text.tail ++
          scanComments mode' rest' literals' (at_ + c.utf8Size) text := by
  cases rest with
  | succ rest => exact ⟨mode, rest, literals, .inl rfl⟩
  | zero =>
      cases mode with
      | line => exact ⟨_, 0, literals, .inl rfl⟩
      | block depth =>
          rw [scanComments]
          by_cases hopen : c = '/' ∧ text.head? = some '*'
          · rw [if_pos hopen]
            exact ⟨_, 1, literals, .inl rfl⟩
          · rw [if_neg hopen]
            by_cases hclose : c = '*' ∧ text.head? = some '/'
            · rw [if_pos hclose]
              exact ⟨_, 1, literals, .inl rfl⟩
            · rw [if_neg hclose]
              exact ⟨_, 0, literals, .inl rfl⟩
      | code =>
          rw [scanComments]
          split_ifs with hliteral hblock hline
          · exact ⟨.code, 0, _, .inl rfl⟩
          · exact ⟨.block 1, 1, _, .inl rfl⟩
          · exact ⟨.line, 0, _, .inr ⟨hline.1, hline.2, rfl, rfl, rfl⟩⟩
          · exact ⟨.code, 0, _, .inl rfl⟩

theorem mem_commentAt {at_ : Nat} {text : List Char} {comment : Comment}
    (h : comment ∈ commentAt at_ text) :
    comment = ⟨⟨at_, at_ + 2 + byteLength (text.takeWhile (· ≠ '\n'))⟩⟩ := by
  rw [commentAt] at h
  split_ifs at h
  · cases h
  · exact List.mem_singleton.mp h

theorem le_start_of_mem {mode : ScanMode} {rest : Nat} {literals : List Span} {at_ : Nat}
    {text : List Char} {comment : Comment}
    (h : comment ∈ scanComments mode rest literals at_ text) : at_ ≤ comment.span.start := by
  induction text generalizing mode rest literals at_ with
  | nil => rw [scanComments.eq_def] at h; cases h
  | cons c text ih =>
      obtain ⟨mode', rest', literals', heq | ⟨-, -, -, -, heq⟩⟩ :=
        scanComments_cons mode rest literals at_ c text
      · rw [heq] at h
        exact (Nat.le_add_right _ _).trans (ih h)
      · rw [heq] at h
        obtain h | h := List.mem_append.mp h
        · rw [mem_commentAt h]
        · exact (Nat.le_add_right _ _).trans (ih h)

theorem takeWhile_cons_of_ne {c : Char} (hc : c ≠ '\n') (text : List Char) :
    (c :: text).takeWhile (· ≠ '\n') = c :: text.takeWhile (· ≠ '\n') :=
  List.takeWhile_cons_of_pos (by simpa using hc)

/-- What is before the end of a line, and what is behind it. -/
theorem takeWhile_newline (text : List Char) : '\n' ∉ text.takeWhile (· ≠ '\n') ∧
    (text.dropWhile (· ≠ '\n') = [] ∨ ∃ rest, text.dropWhile (· ≠ '\n') = '\n' :: rest) := by
  induction text with
  | nil => exact ⟨List.not_mem_nil, .inl rfl⟩
  | cons c text ih =>
      by_cases hc : c = '\n'
      · subst hc
        exact ⟨List.not_mem_nil, .inr ⟨text, rfl⟩⟩
      · rw [takeWhile_cons_of_ne hc, List.dropWhile_cons_of_pos (by simpa using hc)]
        exact ⟨List.not_mem_cons_of_ne_of_not_mem (Ne.symm hc) ih.1, ih.2⟩

/-- After a line comment the scan goes on at the next line. -/
theorem scanComments_line {literals : List Span} {at_ : Nat} {text : List Char}
    {comment : Comment} (h : comment ∈ scanComments .line 0 literals at_ text) :
    ∃ rest, text = text.takeWhile (· ≠ '\n') ++ '\n' :: rest ∧
      at_ + byteLength (text.takeWhile (· ≠ '\n')) + 1 ≤ comment.span.start := by
  induction text generalizing at_ with
  | nil => cases h
  | cons c text ih =>
      rw [scanComments] at h
      by_cases hc : c = '\n'
      · subst hc
        exact ⟨text, rfl, le_start_of_mem h⟩
      · rw [if_neg hc] at h
        obtain ⟨rest, htext, hstart⟩ := ih h
        rw [takeWhile_cons_of_ne hc, byteLength_cons, ← Nat.add_assoc]
        exact ⟨rest, congrArg (c :: ·) htext, hstart⟩

/-- The induction is on the text, with one character for each step of the scan. -/
theorem areComments_scanComments (mode : ScanMode) (rest : Nat) (literals : List Span) (at_ : Nat)
    (text : List Char) : AreComments at_ text (scanComments mode rest literals at_ text) := by
  induction text generalizing mode rest literals at_ with
  | nil =>
      rw [scanComments.eq_def]
      exact ⟨List.forall_mem_nil _, .nil⟩
  | cons c text ih =>
      obtain ⟨mode', rest', literals', heq | ⟨rfl, hslash, rfl, rfl, heq⟩⟩ :=
        scanComments_cons mode rest literals at_ c text
      · rw [heq]
        exact (ih mode' rest' literals' _).cons
      · -- a line comment, and the comments of the lines behind it
        rw [heq]
        obtain ⟨tail, rfl⟩ : ∃ tail, text = '/' :: tail := by
          cases text with
          | nil => cases hslash
          | cons c tail => exact ⟨tail, by rw [Option.some.inj hslash]⟩
        have hrest := (ih .line 0 literals' (at_ + '/'.utf8Size)).cons (c := '/')
        refine ⟨?_, ?_⟩
        · intro comment hcomment
          obtain hcomment | hcomment := List.mem_append.mp hcomment
          · rw [mem_commentAt hcomment]
            refine ⟨[], tail.takeWhile (· ≠ '\n'), tail.dropWhile (· ≠ '\n'), ?_, rfl, rfl, ?_, ?_⟩
            · rw [List.nil_append, List.takeWhile_append_dropWhile]
            · exact (takeWhile_newline tail).1
            · exact (takeWhile_newline tail).2
          · exact hrest.each comment hcomment
        · refine List.pairwise_append.mpr ⟨?_, hrest.apart, ?_⟩
          · rw [commentAt]
            split_ifs
            · exact .nil
            · exact List.pairwise_singleton _ _
          · intro comment hcomment comment' hcomment'
            rw [mem_commentAt hcomment]
            obtain ⟨rest, htext, hstart⟩ := scanComments_line hcomment'
            have hne : ('/' : Char) ≠ '\n' := by decide
            rw [takeWhile_cons_of_ne hne] at htext hstart
            obtain htail := (List.cons.inj htext).2
            refine ⟨'/' :: '/' :: tail.takeWhile (· ≠ '\n'), rest, ?_, ?_, ?_⟩
            · exact congrArg (fun tail => '/' :: '/' :: tail) htail
            · simp only [byteLength_cons]
              rw [← Nat.add_assoc, ← Nat.add_assoc]
              rfl
            · rw [byteLength_cons, ← Nat.add_assoc] at hstart
              exact hstart

theorem areComments_lineComments (source : List Char) (literals : List Span) :
    AreComments 0 source (lineComments source literals) := by
  rw [lineComments]
  dsimp only
  split_ifs
  · -- the first line is passed over
    have hlater : ∀ script rest : List Char,
        AreComments 0 (script ++ rest) (scanComments .code 0
          (literals.insertionSort fun a b => a.start ≤ b.start) (byteLength script) rest) := by
      intro script rest
      suffices h : ∀ at_, AreComments at_ (script ++ rest) (scanComments .code 0
          (literals.insertionSort fun a b => a.start ≤ b.start) (at_ + byteLength script) rest) by
        have h₀ := h 0
        rwa [Nat.zero_add] at h₀
      induction script with
      | nil => exact fun at_ => areComments_scanComments _ _ _ at_ rest
      | cons c script ih =>
          intro at_
          have h := (ih (at_ + c.utf8Size)).cons
          rwa [Nat.add_assoc, ← byteLength_cons] at h
    have h := hlater (source.takeWhile (· ≠ '\n')) (source.dropWhile (· ≠ '\n'))
    rwa [List.takeWhile_append_dropWhile] at h
  · exact areComments_scanComments _ _ _ 0 source

/-! ### What the lines are -/

theorem mem_lineStarts {len at_ start : Nat} {text : List Char} :
    start ∈ lineStarts len at_ text ↔ ∃ before rest, text = before ++ '\n' :: rest ∧
      start = at_ + byteLength before + 1 ∧ start < len := by
  induction text generalizing at_ with
  | nil => simp [lineStarts]
  | cons c text ih =>
      have hrest : (∃ before rest, c :: text = before ++ '\n' :: rest ∧
          start = at_ + byteLength before + 1 ∧ start < len) ↔
          (c = '\n' ∧ start = at_ + 1 ∧ start < len) ∨
            start ∈ lineStarts len (at_ + c.utf8Size) text := by
        rw [ih]
        constructor
        · rintro ⟨before, rest, htext, hstart, hlt⟩
          cases before with
          | nil =>
              cases htext
              exact .inl ⟨rfl, hstart, hlt⟩
          | cons c' before =>
              cases htext
              exact .inr ⟨before, rest, rfl, by rw [hstart, byteLength_cons, ← Nat.add_assoc], hlt⟩
        · rintro (⟨rfl, hstart, hlt⟩ | ⟨before, rest, rfl, hstart, hlt⟩)
          · exact ⟨[], text, rfl, hstart, hlt⟩
          · exact ⟨c :: before, rest, rfl, by rw [hstart, byteLength_cons, ← Nat.add_assoc], hlt⟩
      rw [hrest, lineStarts]
      split_ifs with hc
      · rw [List.mem_cons]
        refine or_congr ⟨?_, fun h => h.2.1⟩ Iff.rfl
        rintro rfl
        exact ⟨hc.1, rfl, hc.2⟩
      · refine (or_iff_right ?_).symm
        rintro ⟨hnewline, rfl, hlt⟩
        exact hc ⟨hnewline, hlt⟩

theorem lt_of_mem_lineStarts {len at_ start : Nat} {text : List Char}
    (h : start ∈ lineStarts len at_ text) : at_ < start := by
  obtain ⟨before, rest, -, rfl, -⟩ := mem_lineStarts.mp h
  exact Nat.lt_succ_of_le (Nat.le_add_right _ _)

theorem lineStarts_sorted (len at_ : Nat) (text : List Char) :
    (lineStarts len at_ text).Pairwise (· < ·) := by
  induction text generalizing at_ with
  | nil => exact .nil
  | cons c text ih =>
      rw [lineStarts]
      split_ifs with hc
      · refine .cons (fun start hstart => ?_) (ih _)
        have hlt := lt_of_mem_lineStarts hstart
        rw [hc.1] at hlt
        exact hlt
      · exact ih _

namespace Lines

/-- The lines of a source start at the beginning and are sorted. -/
structure WellFormed (lines : Lines) : Prop where
  sorted : lines.starts.Pairwise (· < ·)
  first : lines.starts[0]? = some 0
  bound : ∀ line start, lines.starts[line + 1]? = some start → start < lines.len

theorem wellFormed_new (source : List Char) : (new source).WellFormed where
  sorted := .cons (fun _ h => lt_of_mem_lineStarts h) (lineStarts_sorted _ 0 source)
  first := rfl
  bound line start h := by
    obtain ⟨-, -, -, -, hlt⟩ := mem_lineStarts.mp (List.mem_of_getElem? (l := lineStarts _ 0 source) h)
    exact hlt

variable {lines : Lines} (h : lines.WellFormed)
include h

theorem number_eq (offset : Nat) :
    lines.number offset = (lines.starts.filter fun start => start ≤ offset).length := by
  rw [number]
  have hsorted := h.sorted
  generalize lines.starts = starts at hsorted
  induction hsorted with
  | nil => rfl
  | @cons start starts hlt _ ih =>
      by_cases hstart : start ≤ offset
      · rw [List.takeWhile_cons_of_pos (by simpa using hstart),
          List.filter_cons_of_pos (by simpa using hstart), List.length_cons, List.length_cons, ih]
      · have hnone : starts.filter (fun start => start ≤ offset) = [] := by
          refine List.filter_eq_nil_iff.mpr fun later hlater => ?_
          simpa using (Nat.lt_of_not_le hstart).trans (hlt later hlater)
        rw [List.takeWhile_cons_of_neg (by simpa using hstart),
          List.filter_cons_of_neg (by simpa using hstart), hnone]

/-- A line that starts between two positions separates them. -/
theorem number_lt {offset offset' start : Nat} (hstart : start ∈ lines.starts)
    (hlt : offset < start) (hle : start ≤ offset') :
    lines.number offset < lines.number offset' := by
  have hsub : lines.starts.filter (fun start => start ≤ offset) =
      (lines.starts.filter fun start => start ≤ offset').filter fun start => start ≤ offset := by
    rw [List.filter_filter]
    refine List.filter_congr fun other _ => ?_
    rw [Bool.eq_iff_iff, Bool.and_eq_true, decide_eq_true_iff, decide_eq_true_iff]
    exact ⟨fun hother => ⟨hother, hother.trans (hlt.le.trans hle)⟩, And.left⟩
  rw [number_eq h, number_eq h, hsub]
  refine List.length_filter_lt_length_iff_exists.mpr ⟨start, ?_, ?_⟩
  · exact List.mem_filter.mpr ⟨hstart, decide_eq_true hle⟩
  · simpa using hlt

theorem number_le_count (offset : Nat) : lines.number offset ≤ lines.count := by
  rw [number_eq h]
  exact List.length_filter_le _ _

theorem number_pos (offset : Nat) : 0 < lines.number offset := by
  rw [number_eq h]
  refine List.length_pos_of_mem (List.mem_filter.mpr ⟨List.mem_of_getElem? h.first, ?_⟩)
  exact decide_eq_true (Nat.zero_le offset)

omit h in
/-- The start of a line that there is. -/
theorem start_eq {line : Nat} (hpos : 0 < line) (hle : line ≤ lines.count) :
    ∃ hlt : line - 1 < lines.starts.length, lines.start line = lines.starts[line - 1] := by
  have hlt : line - 1 < lines.starts.length := Nat.sub_one_lt_of_le hpos hle
  exact ⟨hlt, by rw [start, List.getElem?_eq_getElem hlt, Option.getD_some]⟩

theorem start_lt_start {line line' : Nat} (hpos : 0 < line) (hlt : line < line')
    (hle : line' ≤ lines.count) : lines.start line < lines.start line' := by
  obtain ⟨hline, heq⟩ := start_eq hpos (hlt.le.trans hle)
  obtain ⟨hline', heq'⟩ := start_eq (hpos.trans hlt) hle
  rw [heq, heq']
  exact List.pairwise_iff_getElem.mp h.sorted _ _ hline hline' (by omega)

/-- A line stops where the next one starts. -/
theorem stop_le_start {line line' : Nat} (hlt : line < line') (hle : line' ≤ lines.count) :
    lines.stop line ≤ lines.start line' := by
  obtain ⟨hline', heq'⟩ := start_eq (Nat.zero_lt_of_lt hlt) hle
  obtain heq | hlt := (Nat.le_sub_one_of_lt hlt).eq_or_lt
  · rw [start, stop, heq]
  · rw [heq', stop, List.getElem?_eq_getElem (hlt.trans hline'), Option.getD_some]
    exact (List.pairwise_iff_getElem.mp h.sorted _ _ (hlt.trans hline') hline' hlt).le

theorem stop_lt_stop {line line' : Nat} (hpos : 0 < line) (hlt : line < line')
    (hle : line' ≤ lines.count) : lines.stop line < lines.stop line' := by
  have hline : line < lines.starts.length := hlt.trans_le hle
  obtain ⟨line, rfl⟩ := Nat.exists_eq_succ_of_ne_zero hpos.ne'
  rw [stop, stop, List.getElem?_eq_getElem hline, Option.getD_some]
  cases hget : lines.starts[line']? with
  | none => exact h.bound line _ (List.getElem?_eq_getElem hline)
  | some start =>
      obtain ⟨hline', rfl⟩ := List.getElem?_eq_some_iff.mp hget
      exact List.pairwise_iff_getElem.mp h.sorted _ _ hline hline' hlt

/-- No line starts between the start of a position's line and the position. -/
theorem le_start_number {offset start : Nat} (hstart : start ∈ lines.starts)
    (hle : start ≤ offset) : start ≤ lines.start (lines.number offset) := by
  obtain ⟨n, hn, rfl⟩ := List.getElem_of_mem hstart
  by_contra hlt
  obtain ⟨hline, heq⟩ := start_eq (number_pos h offset) (number_le_count h offset)
  rw [heq, not_le] at hlt
  -- the starts up to the later one are all counted
  have hcount : n + 1 ≤ lines.number offset := by
    have htake : (lines.starts.take (n + 1)).length ≤ lines.number offset := by
      rw [number_eq h]
      refine List.Sublist.length_le ?_
      have hall : (lines.starts.take (n + 1)).filter (fun start => start ≤ offset) =
          lines.starts.take (n + 1) := by
        refine List.filter_eq_self.mpr fun other hother => decide_eq_true ?_
        obtain ⟨m, hm, rfl⟩ := List.getElem_of_mem hother
        rw [List.getElem_take]
        rw [List.length_take] at hm
        obtain rfl | hmn := (Nat.le_of_lt_succ (hm.trans_le (Nat.min_le_left _ _))).eq_or_lt
        · exact hle
        · exact (List.pairwise_iff_getElem.mp h.sorted _ _ _ hn hmn).le.trans hle
      rw [← hall]
      exact (List.take_sublist _ _).filter _
    rwa [List.length_take, Nat.min_eq_left hn] at htake
  have hle' : n ≤ lines.number offset - 1 := Nat.le_sub_one_of_lt hcount
  obtain heq | hlt' := hle'.eq_or_lt
  · simp only [← heq] at hlt
    exact absurd hlt (Nat.lt_irrefl _)
  · exact absurd (hlt.trans (List.pairwise_iff_getElem.mp h.sorted _ _ hn hline hlt'))
      (Nat.lt_irrefl _)

end Lines

/-- A later comment is on a later line, and behind the start of that line. -/
theorem OnLaterLine.number_lt {source : List Char} {comment comment' : Comment}
    (h : OnLaterLine 0 source comment comment') (h' : IsComment 0 source comment')
    (hle : comment.span.start ≤ comment.span.stop) :
    (Lines.new source).number comment.span.start < (Lines.new source).number comment'.span.start ∧
      comment.span.start < (Lines.new source).start
        ((Lines.new source).number comment'.span.start) := by
  have hwell := Lines.wellFormed_new source
  obtain ⟨before, rest, hsource, hstop, hstart⟩ := h
  have hmem : comment.span.stop + 1 ∈ (Lines.new source).starts := by
    refine List.mem_cons_of_mem _ (mem_lineStarts.mpr ⟨before, rest, hsource, ?_, ?_⟩)
    · rw [hstop]
    · obtain ⟨before', body, after, hsource', hstart', -⟩ := h'
      have hlen : byteLength source = byteLength before' + (1 + (1 + byteLength (body ++ after))) := by
        rw [hsource', byteLength_append]
        rfl
      omega
  have hlt : comment.span.start < comment.span.stop + 1 := Nat.lt_succ_of_le hle
  exact ⟨Lines.number_lt hwell hmem hlt hstart,
    hlt.trans_le (Lines.le_start_number hwell hmem hstart)⟩

end Sage.Meta
