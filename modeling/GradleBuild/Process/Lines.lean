import GradleBuild.Text.Utf8

/-!
# Lines of a stream

The output of a child arrives in reads of any size.  A reader holds the bytes of the line that has begun and gives out
each line that a read completes.  A line loses its line feed and one carriage return before that.  At the end of the
stream the line that has begun is complete too, unless it is empty.

* `feed_append`: it makes no difference where the stream is cut.
-/

namespace GradleBuild.Lines

def lineFeed : UInt8 := 0x0A

def carriageReturn : UInt8 := 0x0D

/-- A line, given by its bytes in reverse, without a carriage return at its end. -/
def finish : Bytes → Bytes
  | [] => []
  | b :: before => if b = carriageReturn then before.reverse else (b :: before).reverse

/-- The lines that some bytes complete, and the bytes of the line that has begun, in reverse. -/
def feed (held : Bytes) : Bytes → List Bytes × Bytes
  | [] => ([], held)
  | b :: bs =>
    if b = lineFeed then
      let (lines, rest) := feed [] bs
      (finish held :: lines, rest)
    else feed (b :: held) bs

/-- The line that has begun when the stream ends. -/
def flush (held : Bytes) : List Bytes := if held.isEmpty then [] else [finish held]

/-- The lines of a whole stream. -/
def split (stream : Bytes) : List Bytes :=
  let (lines, held) := feed [] stream
  lines ++ flush held

theorem feed_append (held xs ys : Bytes) :
    feed held (xs ++ ys) = ((feed held xs).1 ++ (feed (feed held xs).2 ys).1, (feed (feed held xs).2 ys).2) := by
  induction xs generalizing held with
  | nil => simp [feed]
  | cons x xs ih =>
    simp only [List.cons_append, feed]
    split
    · simp [ih]
    · exact ih _

end GradleBuild.Lines
