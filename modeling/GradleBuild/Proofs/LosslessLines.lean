import GradleBuild.Proofs.Schedules

/-!
# Nothing is lost in lines

A line that is forwarded has lost its line feed, and one carriage return before that or at the very end of the stream
(`withoutReturns`).  Everything else arrives, in its place.  Reading the lines as text one by one is reading the stream
as a whole, since a line feed ends every ill-formed run before it.

* `feed_bytes`: the completed lines and the one that has begun are the bytes so far, without those carriage returns.
* `terminated_split`: so the lines of a stream, put behind one another again, are the stream without them.
* `decodeFrom_terminated`: text that is cut at line feeds reads the same.
* `forward_lossless`: how many events are forwarded, and what their messages make together.
-/

namespace GradleBuild

namespace Lines

variable {α : Type} {held bs line stream : Bytes} {lines : List Bytes} {b : UInt8}

/-- Some bytes without each carriage return that a line feed or the end follows. -/
def withoutReturns : Bytes → Bytes
  | [] => []
  | b :: bs =>
    if b = carriageReturn ∧ (bs = [] ∨ bs.head? = some lineFeed) then withoutReturns bs else b :: withoutReturns bs

/-- Whether a stream has no last line without a line feed. -/
def isClosed (stream : Bytes) : Bool := stream.isEmpty || stream.getLast? == some lineFeed

/-- Some lines one after another, with `e` behind each, and behind the last one only if that is closed. -/
def terminated (e : α) (closed : Bool) : List (List α) → List α
  | [] => []
  | [line] => if closed then line ++ [e] else line
  | line :: lines => line ++ e :: terminated e closed lines

theorem terminated_true (e : α) (lines : List (List α)) : terminated e true lines = lines.flatMap (· ++ [e]) := by
  induction lines with
  | nil => rfl
  | cons line lines ih =>
    cases lines with
    | nil => simp [terminated]
    | cons line' lines => simp [terminated, ih]

theorem terminated_concat (e : α) (lines : List (List α)) (last : List α) :
    terminated e false (lines ++ [last]) = lines.flatMap (· ++ [e]) ++ last := by
  induction lines with
  | nil => rfl
  | cons line lines ih =>
    obtain ⟨line', lines', h⟩ := List.exists_cons_of_ne_nil (l := lines ++ [last]) (by simp)
    have hcons : terminated e false (line :: lines ++ [last]) = line ++ e :: terminated e false (lines ++ [last]) := by
      rw [List.cons_append, h]
      rfl
    rw [hcons, ih]
    simp

/-! ### Lines and bytes -/

private theorem withoutReturns_cons (h : b ≠ carriageReturn) (bs : Bytes) :
    withoutReturns (b :: bs) = b :: withoutReturns bs := by
  rw [withoutReturns, if_neg fun hb => h hb.1]

/-- A line that no line feed follows yet loses one carriage return at its end. -/
private theorem withoutReturns_line (h : lineFeed ∉ line) : withoutReturns line = trim line := by
  induction line with
  | nil => rfl
  | cons b line ih =>
    have hrest := ih fun hmem => h (List.mem_cons_of_mem _ hmem)
    have hhead : line.head? ≠ some lineFeed := fun hhead => h (List.mem_cons_of_mem _ (List.mem_of_head? hhead))
    rw [withoutReturns, hrest]
    cases line with
    | nil => by_cases hb : b = carriageReturn <;> simp [trim, hb]
    | cons b' line =>
      rw [if_neg (by simpa using fun _ => hhead)]
      unfold trim
      rw [List.getLast?_cons_cons]
      split <;> rfl

/-- A line with a line feed behind it loses one carriage return before that. -/
private theorem withoutReturns_append (h : lineFeed ∉ line) (bs : Bytes) :
    withoutReturns (line ++ lineFeed :: bs) = trim line ++ lineFeed :: withoutReturns bs := by
  have hfeed : withoutReturns (lineFeed :: bs) = lineFeed :: withoutReturns bs := withoutReturns_cons (by decide) bs
  induction line with
  | nil => exact hfeed
  | cons b line ih =>
    have hrest := ih fun hmem => h (List.mem_cons_of_mem _ hmem)
    rw [List.cons_append, withoutReturns, hrest]
    cases line with
    | nil => by_cases hb : b = carriageReturn <;> simp [trim, hb]
    | cons b' line =>
      have hb' : b' ≠ lineFeed := fun hb' => h (by simp [hb'])
      rw [if_neg (by simp [hb'])]
      unfold trim
      rw [List.getLast?_cons_cons]
      split <;> rfl

/-- The lines that are completed, with their line feeds, and what the line that has begun would be, are the bytes so far
without the carriage returns. -/
theorem feed_bytes (hheld : lineFeed ∉ held) (bs : Bytes) :
    (feed held bs).1.flatMap (· ++ [lineFeed]) ++ finish (feed held bs).2 = withoutReturns (held.reverse ++ bs) := by
  induction bs generalizing held with
  | nil => simp [feed, finish_eq_trim, withoutReturns_line, hheld]
  | cons b bs ih =>
    by_cases hb : b = lineFeed
    · subst hb
      have hrest := ih (List.not_mem_nil : lineFeed ∉ [])
      rw [List.reverse_nil, List.nil_append] at hrest
      rw [withoutReturns_append (by simpa using hheld), ← hrest, ← finish_eq_trim]
      simp [feed]
    · have hrest := ih (show lineFeed ∉ b :: held by simp [hheld, Ne.symm hb])
      simpa [feed, hb] using hrest

/-- One line is completed by each line feed. -/
theorem length_feed (held bs : Bytes) : (feed held bs).1.length = bs.count lineFeed := by
  induction bs generalizing held with
  | nil => rfl
  | cons b bs ih => by_cases hb : b = lineFeed <;> simp [feed, hb, ih]

/-- No line has begun just if nothing has come behind the last line feed. -/
theorem feed_held_isEmpty (held bs : Bytes) :
    (feed held bs).2.isEmpty = if bs.isEmpty then held.isEmpty else bs.getLast? == some lineFeed := by
  induction bs generalizing held with
  | nil => rfl
  | cons b bs ih =>
    by_cases hb : b = lineFeed
    · cases bs with
      | nil => simp [feed, hb]
      | cons b' bs => simpa [feed, hb, List.getLast?_cons_cons] using ih []
    · cases bs with
      | nil => simp [feed, hb]
      | cons b' bs => simpa [feed, hb, List.getLast?_cons_cons] using ih (b :: held)

/-- No line holds a line feed. -/
theorem not_mem_of_mem_split (h : line ∈ split stream) : lineFeed ∉ line := by
  rw [split_eq_ofStream] at h
  obtain ⟨piece, hpiece, rfl⟩ := List.mem_map.1 h
  have hmem : piece ∈ pieces (· == lineFeed) stream := by
    rcases List.mem_append.1 hpiece with hpiece | hpiece
    · exact List.dropLast_subset _ hpiece
    · rw [Option.mem_toList, Option.filter_eq_some_iff] at hpiece
      exact List.mem_of_getLast? hpiece.1
  intro hfeed
  have hsep : lineFeed ∈ piece := by
    unfold trim at hfeed
    split at hfeed
    · exact List.dropLast_subset _ hfeed
    · exact hfeed
  simpa using not_sep_of_mem_pieces hmem lineFeed hsep

private theorem isEmpty_held (stream : Bytes) : (feed [] stream).2.isEmpty = isClosed stream := by
  rw [feed_held_isEmpty, isClosed]
  cases stream <;> simp

/-- There is a line for each line feed, and one more if the stream does not end in one. -/
theorem length_split (stream : Bytes) :
    (split stream).length = stream.count lineFeed + if isClosed stream then 0 else 1 := by
  show ((feed [] stream).1 ++ flush (feed [] stream).2).length = _
  rw [List.length_append, length_feed, flush, isEmpty_held]
  cases isClosed stream <;> rfl

/-- The lines of a stream, put behind one another again, are the stream without the carriage returns. -/
theorem terminated_split (stream : Bytes) :
    terminated lineFeed (isClosed stream) (split stream) = withoutReturns stream := by
  have hbytes := feed_bytes (List.not_mem_nil : lineFeed ∉ []) stream
  rw [List.reverse_nil, List.nil_append] at hbytes
  show terminated lineFeed (isClosed stream) ((feed [] stream).1 ++ flush (feed [] stream).2) = _
  rw [flush, isEmpty_held, ← hbytes]
  cases hclosed : isClosed stream with
  | true =>
    rw [← isEmpty_held, List.isEmpty_iff] at hclosed
    simp [terminated_true, hclosed, finish]
  | false => exact terminated_concat _ _ _

/-! ### Lines and text -/

private theorem decodeFrom_lineFeed (xs ys : Bytes) :
    Utf8.decodeFrom none (xs ++ lineFeed :: ys) = Utf8.decodeFrom none xs ++ '\n' :: Utf8.decodeFrom none ys :=
  Utf8.decodeFrom_append_ascii (by decide) (by simp) xs ys

/-- Text that is cut at line feeds reads the same. -/
theorem decodeFrom_terminated (closed : Bool) (lines : List Bytes) :
    Utf8.decodeFrom none (terminated lineFeed closed lines) =
      terminated '\n' closed (lines.map (Utf8.decodeFrom none)) := by
  induction lines with
  | nil => rfl
  | cons line lines ih =>
    cases lines with
    | nil =>
      cases closed with
      | true => exact decodeFrom_lineFeed line []
      | false => rfl
    | cons line' lines =>
      show Utf8.decodeFrom none (line ++ lineFeed :: terminated lineFeed closed (line' :: lines)) = _
      rw [decodeFrom_lineFeed, ih]
      rfl

end Lines

namespace Command

/-- In whatever reads a stream comes, alone or between those of the other stream, there is an event for each of its line
feeds, and one more if it does not end in one.  Their lines hold no line feeds and are, put behind one another again,
the stream without each carriage return before a line feed or at the end; and so are their messages, as a text. -/
theorem forward_lossless (name : String) (s : Stream) (chunks : List Chunk) :
    let stream := Chunk.bytesOf s chunks
    let events := (forward name {} chunks).filter (·.isTagged s)
    events.length = stream.count Lines.lineFeed + (if Lines.isClosed stream then 0 else 1) ∧
      String.ofList (Lines.terminated '\n' (Lines.isClosed stream) (events.map (·.message.toList))) =
        decodeLossy (Lines.withoutReturns stream) ∧
      ∃ lines, events = lines.map (lineEvent name s) ∧ (∀ line ∈ lines, Lines.lineFeed ∉ line) ∧
        Lines.terminated Lines.lineFeed (Lines.isClosed stream) lines = Lines.withoutReturns stream := by
  intro stream events
  have hevents : events = (Lines.split stream).map (lineEvent name s) := by
    rw [Lines.split_eq_ofStream]
    exact forward_filter
  refine ⟨?_, ?_, Lines.split stream, hevents, fun _ => Lines.not_mem_of_mem_split, Lines.terminated_split stream⟩
  · rw [hevents, List.length_map, Lines.length_split]
  · have hmessages : events.map (·.message.toList) = (Lines.split stream).map (Utf8.decodeFrom none) := by
      rw [hevents, List.map_map]
      exact List.map_congr_left fun line _ => String.toList_ofList
    rw [hmessages, ← Lines.decodeFrom_terminated, Lines.terminated_split]
    rfl

/-- A line keeps all carriage returns but one, and an unfinished character ends with its line. -/
example : ((forward "tool" {} [⟨.stdout, [0x61, 0x0D, 0x0D]⟩, ⟨.stdout, [0x0A, 0xE2, 0x82]⟩,
    ⟨.stdout, [0x0D, 0x0A, 0x62, 0x0D]⟩]).map (·.message)) = ["a\r", "\uFFFD", "b"] := by decide +kernel

end Command

end GradleBuild
