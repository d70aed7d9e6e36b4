import GradleBuild.Process.Run
import GradleBuild.Proofs.Effects
import GradleBuild.Text.Split
import Mathlib.Data.List.Basic
import Mathlib.Logic.Function.Basic

/-!
# Forwarding under any schedule

While a child runs, three parties proceed independently: a reader for each of its streams, and the task that started
it, which waits for the child, then for both readers, and then returns.  A `Session` is the state of the three, and a
schedule says whose turn is next.  A party that cannot go on lets its turn pass, so every row of parties is a schedule.

* `Lines.split_eq_ofStream`: what a reader makes of a stream are the pieces between its line feeds.
* `Command.forward_filter`: in whatever reads the streams come, all of their lines are forwarded in order.
* `Session.returns`: once each reader has had turns enough, a session returns.
* `Session.run_reads`: a session that returns is a run of the command, for one order of the reads.
* `Session.forwards_all`: so no schedule loses a line or changes the result.
-/

namespace GradleBuild

namespace Lines

/-- A line without a carriage return at its end. -/
def trim (line : Bytes) : Bytes := if line.getLast? = some carriageReturn then line.dropLast else line

/-- The lines that some pieces are.  What is behind the last line feed is a line only if it is not empty. -/
def ofPieces (ps : List Bytes) : List Bytes := (ps.dropLast ++ (ps.getLast?.filter (· ≠ [])).toList).map trim

/-- The lines of a stream. -/
def ofStream (stream : Bytes) : List Bytes := ofPieces (pieces (· == lineFeed) stream)

theorem finish_eq_trim (held : Bytes) : finish held = trim held.reverse := by
  cases held with
  | nil => rfl
  | cons b before => simp [finish, trim]

private theorem ofPieces_cons (line w : Bytes) (ws : List Bytes) :
    ofPieces (line :: w :: ws) = trim line :: ofPieces (w :: ws) := by
  simp [ofPieces, List.getLast?_cons_cons]

/-- What is held when some bytes come is the beginning of their first piece. -/
private theorem feed_flush (held : Bytes) {bs w : Bytes} {ws : List Bytes}
    (h : pieces (· == lineFeed) bs = w :: ws) :
    (feed held bs).1 ++ flush (feed held bs).2 = ofPieces ((held.reverse ++ w) :: ws) := by
  induction bs generalizing held w ws with
  | nil =>
    obtain ⟨rfl, rfl⟩ := List.cons.inj h
    cases held with
    | nil => rfl
    | cons b before => simp [feed, flush, ofPieces, finish_eq_trim, Option.filter_some]
  | cons b bs ih =>
    obtain ⟨v, vs, hv⟩ := List.exists_cons_of_ne_nil (pieces_ne_nil (· == lineFeed) bs)
    by_cases hb : b = lineFeed
    · have hcut : pieces (· == lineFeed) (b :: bs) = [] :: v :: vs := by simp [pieces, hb, hv]
      obtain ⟨rfl, rfl⟩ := List.cons.inj (h.symm.trans hcut)
      have hrest := ih [] hv
      rw [List.reverse_nil, List.nil_append] at hrest
      simp [feed, hb, hrest, ofPieces_cons, finish_eq_trim]
    · have hcut : pieces (· == lineFeed) (b :: bs) = (b :: v) :: vs := by simp [pieces, hb, hv]
      obtain ⟨rfl, rfl⟩ := List.cons.inj (h.symm.trans hcut)
      have hrest := ih (b :: held) hv
      simpa [feed, hb] using hrest

/-- The lines that a reader makes of a stream are the pieces between its line feeds. -/
theorem split_eq_ofStream (stream : Bytes) : split stream = ofStream stream := by
  obtain ⟨w, ws, hw⟩ := List.exists_cons_of_ne_nil (pieces_ne_nil (· == lineFeed) stream)
  unfold ofStream
  rw [hw]
  exact feed_flush [] hw

end Lines

/-! ### Reads in any order -/

/-- What the reads of a stream give one after another. -/
def Chunk.bytesOf (s : Stream) (chunks : List Chunk) : Bytes := (chunks.filter (·.stream = s)).flatMap (·.bytes)

theorem Chunk.bytesOf_cons (s : Stream) (c : Chunk) (chunks : List Chunk) :
    bytesOf s (c :: chunks) = (if c.stream = s then c.bytes else []) ++ bytesOf s chunks := by
  unfold bytesOf
  by_cases h : c.stream = s <;> simp [h]

theorem Chunk.bytesOf_append (s : Stream) (chunks others : List Chunk) :
    bytesOf s (chunks ++ others) = bytesOf s chunks ++ bytesOf s others := by
  simp [bytesOf]

theorem Chunk.bytesOf_eq_nil {s : Stream} {chunks : List Chunk} (h : ¬ chunks.any (·.stream = s) = true) :
    bytesOf s chunks = [] := by
  simp only [List.any_eq_true, decide_eq_true_eq, not_exists, not_and] at h
  have hnone : chunks.filter (·.stream = s) = [] := List.filter_eq_nil_iff.2 (by simpa using h)
  rw [bytesOf, hnone, List.flatMap_nil]

/-- Whether an event is tagged with a stream. -/
def Log.Event.isTagged (s : Stream) (e : Log.Event) : Bool := e.fields.contains (.quoted "stream" s.name)

namespace Command

variable {name : String} {c : Command} {s s' : Stream} {r : Readers} {held : Bytes} {chunks : List Chunk}

theorem lineEvent_isTagged (line : Bytes) : (lineEvent name s line).isTagged s' = decide (s = s') := by
  cases s <;> cases s' <;> simp [Log.Event.isTagged, lineEvent, Log.Field.of, Log.Field.quoted, Stream.name]

private theorem filter_lineEvents (lines : List Bytes) :
    (lines.map (lineEvent name s)).filter (·.isTagged s') = if s = s' then lines.map (lineEvent name s) else [] := by
  by_cases h : s = s'
  · rw [if_pos h, List.filter_eq_self]
    intro e he
    obtain ⟨line, -, rfl⟩ := List.mem_map.1 he
    simp [lineEvent_isTagged, h]
  · rw [if_neg h, List.filter_eq_nil_iff]
    intro e he
    obtain ⟨line, -, rfl⟩ := List.mem_map.1 he
    simp [lineEvent_isTagged, h]

@[simp] theorem Readers.held_hold_self : (r.hold held s).held s = held := by
  cases s <;> rfl

theorem Readers.held_hold_of_ne (h : s ≠ s') : (r.hold held s).held s' = r.held s' := by
  cases s <;> cases s' <;> first | rfl | exact absurd rfl h

/-- Nothing is forwarded for a stream that is read no more; else its lines are. -/
private theorem forward_filter_from : (forward name r chunks).filter (·.isTagged s) =
    if chunks.any (·.stream = s) then
      ((Lines.feed (r.held s) (Chunk.bytesOf s chunks)).1 ++
        Lines.flush (Lines.feed (r.held s) (Chunk.bytesOf s chunks)).2).map (lineEvent name s)
    else [] := by
  induction chunks generalizing r with
  | nil => rfl
  | cons c rest ih =>
    rw [forward]
    dsimp only
    rw [List.filter_append, filter_lineEvents, ih, Chunk.bytesOf_cons]
    by_cases hc : c.stream = s
    · subst hc
      have hany : (c :: rest).any (·.stream = c.stream) = true := by simp
      rw [Readers.held_hold_self, if_pos rfl, if_pos rfl, if_pos hany, Lines.feed_append]
      by_cases hrest : rest.any (·.stream = c.stream) = true
      · simp only [if_pos hrest, List.append_nil, List.map_append, List.append_assoc]
      · -- this was the last read of the stream
        simp only [if_neg hrest, Chunk.bytesOf_eq_nil hrest, Lines.feed, List.append_nil]
    · rw [Readers.held_hold_of_ne hc, if_neg hc, if_neg hc, List.any_cons, decide_eq_false hc, Bool.false_or]
      rfl

/-- Of each stream all lines are forwarded in order, in whatever reads they come. -/
theorem forward_filter : (forward name {} chunks).filter (·.isTagged s) =
    (Lines.ofStream (Chunk.bytesOf s chunks)).map (lineEvent name s) := by
  rw [forward_filter_from, ← Lines.split_eq_ofStream]
  have hheld : ({} : Readers).held s = [] := by cases s <;> rfl
  rw [hheld]
  split
  · rfl
  · rename_i hnone
    rw [Chunk.bytesOf_eq_nil hnone]
    rfl

/-- Everything that is forwarded is a line of one of the streams. -/
theorem mem_forward {e : Log.Event} (h : e ∈ forward name r chunks) : ∃ s line, e = lineEvent name s line := by
  induction chunks generalizing r with
  | nil => simp [forward] at h
  | cons c rest ih =>
    rw [forward] at h
    rcases List.mem_append.1 h with h | h
    · obtain ⟨line, -, rfl⟩ := List.mem_map.1 h
      exact ⟨c.stream, line, rfl⟩
    · exact ih h

/-! ### The run of a command -/

/-- What is logged before the output of a child. -/
def announced (c : Command) : List Log.Event :=
  (c.directory.toList.map fun d => ⟨.debug, .runner, "cd", [.of "cwd" d.display]⟩) ++
    [⟨.debug, .runner, "exec", [.of "cmd" c.line]⟩, c.spawned]

/-- The event for a child that has ended well. -/
def completed (c : Command) : Log.Event where
  level := .trace
  source := .runner
  message := "completed"
  fields := [.of "process" c.displayName]

/-- What comes of a command whose child has ended. -/
def result (c : Command) : Status → Except Failure Unit
  | .exited 0 => .ok ()
  | .exited code => .error (.of (.nonZeroExit c.line code))
  | .killed _ => .error (.of (.nonZeroExit c.line (-1)))

/-- What is logged after the output of a child. -/
def closing (c : Command) (status : Status) : List Log.Event := if status = .exited 0 then [c.completed] else []

theorem code_eq_zero_iff {status : Status} : status.code = 0 ↔ status = .exited 0 := by
  cases status <;> simp [Status.code]

theorem result_eq {status : Status} : c.result status =
    if status.code = 0 then .ok () else .error (.of (.nonZeroExit c.line status.code)) := by
  rcases status with (_ | code) | signal
  · rfl
  · have hcode : ((code + 1 : Nat) : Int) ≠ 0 := by omega
    exact (if_neg hcode).symm
  · have hcode : (-1 : Int) ≠ 0 := by decide
    exact (if_neg hcode).symm

/-- A command whose child is started shows what it announces, the output, and that it has completed if it has. -/
theorem run_apply {surroundings : Surroundings} {m : Machine} {call : Call}
    (hcall : c.call surroundings m.tree = .ok call) :
    c.run surroundings m = (c.result (surroundings.child m.calls call m.tree).status,
      { tree := (surroundings.child m.calls call m.tree).tree
        calls := m.calls ++ [call]
        shown := m.shown ++ c.announced.map .event ++ c.shownOutput (surroundings.child m.calls call m.tree).chunks ++
          (c.closing (surroundings.child m.calls call m.tree).status).map .event }) := by
  have hstart (m₁ : Machine) (htree : m₁.tree = m.tree) (hcalls : m₁.calls = m.calls) :
      (do
        let code ← c.start surroundings
        if code = 0 then Run.log .trace .runner "completed" [.of "process" c.displayName]
        else Run.fail (.nonZeroExit c.line code) : Run Unit) m₁ =
      (c.result (surroundings.child m.calls call m.tree).status,
        { tree := (surroundings.child m.calls call m.tree).tree
          calls := m.calls ++ [call]
          shown := m₁.shown ++ .event c.spawned :: c.shownOutput (surroundings.child m.calls call m.tree).chunks ++
            (c.closing (surroundings.child m.calls call m.tree).status).map .event }) := by
    have hchild : c.start surroundings m₁ = (.ok (surroundings.child m.calls call m.tree).status.code,
        { tree := (surroundings.child m.calls call m.tree).tree
          calls := m.calls ++ [call]
          shown := m₁.shown ++ .event c.spawned ::
            c.shownOutput (surroundings.child m.calls call m.tree).chunks }) := by
      unfold start
      rw [htree, hcall, hcalls]
    rw [bind_apply_ok hchild, result_eq, closing]
    by_cases hcode : (surroundings.child m.calls call m.tree).status.code = 0
    · rw [if_pos hcode, if_pos hcode, if_pos (code_eq_zero_iff.1 hcode)]
      rfl
    · rw [if_neg hcode, if_neg hcode, if_neg fun h => hcode (code_eq_zero_iff.2 h)]
      simp [Run.fail, throw_apply]
  unfold run announced
  cases c.directory with
  | none =>
    refine (hstart { m with shown := m.shown ++ _ } rfl rfl).trans ?_
    simp
  | some d =>
    refine (hstart { m with shown := m.shown ++ _ ++ _ } rfl rfl).trans ?_
    simp

end Command

/-! ### Sessions -/

/-- A reader of a stream holds the line that has begun, in reverse, and the stream still gives `rest`; or it has given
out a last line without a line feed; or it has seen the end. -/
inductive Reader where
  | reading (held rest : Bytes)
  | drained
  | closed

namespace Reader

/-- One turn of a reader, with the lines that it gives out: it takes a byte, or finds that there is none. -/
def turn : Reader → List Bytes × Reader
  | .reading held (b :: rest) => ((Lines.feed held [b]).1, .reading (Lines.feed held [b]).2 rest)
  | .reading held [] => (Lines.flush held, if held.isEmpty then .closed else .drained)
  | .drained => ([], .closed)
  | .closed => ([], .closed)

/-- What the stream still gives. -/
def rest : Reader → Bytes
  | .reading _ rest => rest
  | _ => []

def isReading : Reader → Bool
  | .reading .. => true
  | _ => false

/-- How many turns a reader needs to see the end. -/
def turns : Reader → Nat
  | .reading _ rest => rest.length + 2
  | .drained => 1
  | .closed => 0

end Reader

/-- Who takes a turn. -/
inductive Party where
  | reader (s : Stream)
  | main
  deriving DecidableEq

/-- How far the task that started the child is: it waits for the child, then for a reader, and then returns. -/
inductive Stage where
  | waiting
  | joining (s : Stream)
  | returned (r : Except Failure Unit)

/-- The parties while a child runs, and what they have logged. -/
structure Session where
  reader : Stream → Reader
  stage : Stage := .waiting
  events : List Log.Event := []

namespace Session

/-- The session when the child starts, which will give these streams. -/
def start (streams : Stream → Bytes) : Session := { reader := fun s => .reading [] (streams s) }

/-- One turn.  The child may have ended at any turn of the task that waits for it. -/
def turn (c : Command) (status : Status) (x : Session) : Party → Session
  | .reader s =>
    { x with
      reader := Function.update x.reader s (x.reader s).turn.2
      events := x.events ++ (x.reader s).turn.1.map (Command.lineEvent c.displayName s) }
  | .main =>
    match x.stage with
    | .waiting => { x with stage := .joining .stdout }
    | .joining .stdout =>
      match x.reader .stdout with
      | .closed => { x with stage := .joining .stderr }
      | _ => x
    | .joining .stderr =>
      match x.reader .stderr with
      | .closed =>
        if status.code = 0 then { x with stage := .returned (.ok ()), events := x.events ++ [c.completed] }
        else { x with stage := .returned (.error (.of (.nonZeroExit c.line status.code))) }
      | _ => x
    | .returned _ => x

def run (c : Command) (status : Status) (x : Session) (schedule : List Party) : Session :=
  schedule.foldl (turn c status) x

variable {c : Command} {status : Status} {x : Session} {streams : Stream → Bytes} {schedule : List Party}
  {r : Except Failure Unit} {s : Stream}

/-- A reader that has been waited for has seen the end of its stream. -/
structure Joined (x : Session) : Prop where
  stdout : x.stage = .joining .stderr → x.reader .stdout = .closed
  both : ∀ r, x.stage = .returned r → ∀ s, x.reader s = .closed

theorem joined_start : (start streams).Joined := ⟨by simp [start], by simp [start]⟩

/-- A turn of a reader whose stream has ended. -/
private theorem turn_closed (h : x.reader s = .closed) : x.turn c status (.reader s) = x := by
  have hreader : Function.update x.reader s Reader.closed = x.reader := by rw [← h, Function.update_eq_self]
  simp [turn, h, Reader.turn, hreader]

private theorem reader_turn_of_ne {s' : Stream} (h : s' ≠ s) :
    (x.turn c status (.reader s)).reader s' = x.reader s' := Function.update_of_ne h _ _

private theorem reader_turn_self : (x.turn c status (.reader s)).reader s = (x.reader s).turn.2 :=
  Function.update_self _ _ _

variable (c status) in
/-- The cases of a turn of the task that started the child. -/
private theorem turn_main (hx : x.Joined) : x.turn c status .main = x ∨
    x.stage = .waiting ∧ x.turn c status .main = { x with stage := .joining .stdout } ∨
    x.stage = .joining .stdout ∧ x.reader .stdout = .closed ∧
      x.turn c status .main = { x with stage := .joining .stderr } ∨
    x.stage = .joining .stderr ∧ (∀ s, x.reader s = .closed) ∧ x.turn c status .main =
      { x with stage := .returned (c.result status), events := x.events ++ c.closing status } := by
  unfold turn
  rcases hstage : x.stage with _ | (_ | _) | _
  · exact Or.inr (Or.inl ⟨rfl, rfl⟩)
  · rcases hreader : x.reader .stdout with _ | _ | _
    · exact Or.inl rfl
    · exact Or.inl rfl
    · exact Or.inr (Or.inr (Or.inl ⟨rfl, rfl, rfl⟩))
  · rcases hreader : x.reader .stderr with _ | _ | _
    · exact Or.inl rfl
    · exact Or.inl rfl
    · refine Or.inr (Or.inr (Or.inr ⟨rfl, fun s => ?_, ?_⟩))
      · cases s with
        | stdout => exact hx.stdout hstage
        | stderr => exact hreader
      · rw [Command.result_eq, Command.closing]
        by_cases hcode : status.code = 0
        · simp only [if_pos hcode, if_pos (Command.code_eq_zero_iff.1 hcode)]
        · simp only [if_neg hcode, if_neg (mt Command.code_eq_zero_iff.2 hcode), List.append_nil]
  · exact Or.inl rfl

theorem Joined.turn (hx : x.Joined) (p : Party) : (x.turn c status p).Joined := by
  cases p with
  | reader s =>
    have hclosed {s' : Stream} (h : x.reader s' = .closed) :
        (x.turn c status (.reader s)).reader s' = .closed := by
      by_cases hs : s' = s
      · subst hs
        rw [turn_closed h, h]
      · rw [reader_turn_of_ne hs, h]
    exact ⟨fun h => hclosed (hx.stdout h), fun r h s' => hclosed (hx.both r h s')⟩
  | main =>
    rcases turn_main c status hx with h | ⟨-, h⟩ | ⟨-, hout, h⟩ | ⟨-, hboth, h⟩
    · rwa [h]
    · rw [h]
      exact ⟨by simp, by simp⟩
    · rw [h]
      exact ⟨fun _ => hout, by simp⟩
    · rw [h]
      exact ⟨by simp, fun _ _ => hboth⟩

/-- Once a session has returned, nothing happens any more. -/
theorem run_of_returned (hx : x.Joined) (h : x.stage = .returned r) : x.run c status schedule = x := by
  induction schedule with
  | nil => rfl
  | cons p ps ih =>
    have hturn : x.turn c status p = x := by
      cases p with
      | reader s => exact turn_closed (hx.both r h s)
      | main =>
        unfold Session.turn
        rw [h]
    rw [run, List.foldl_cons, hturn]
    exact ih

/-! ### What a session shows -/

/-- The read that a reader makes at a turn, if it makes one. -/
private def reads (s : Stream) : Reader → List Chunk
  | .reading _ [] => [⟨s, []⟩]
  | .reading _ (b :: _) => [⟨s, [b]⟩]
  | _ => []

/-- What is held after that read. -/
private def holding (R : Command.Readers) (s : Stream) : Reader → Command.Readers
  | .reading held [] => R.hold held s
  | .reading held (b :: _) => R.hold (Lines.feed held [b]).2 s
  | _ => R

/-- After its turn a reader still holds what is held for its stream. -/
private theorem holding_held {R : Command.Readers} (s : Stream)
    (hR : ∀ s held rest, x.reader s = .reading held rest → R.held s = held) (s' : Stream) (held rest : Bytes)
    (h : (x.turn c status (.reader s)).reader s' = .reading held rest) :
    (holding R s (x.reader s)).held s' = held := by
  by_cases hs : s' = s
  · subst hs
    rw [reader_turn_self] at h
    rcases hreader : x.reader s' with ⟨held', _ | ⟨b, rest'⟩⟩ | _ | _
    all_goals simp only [hreader, Reader.turn] at h
    · split at h <;> cases h
    · obtain ⟨rfl, -⟩ := Reader.reading.inj h
      exact Command.Readers.held_hold_self
    · cases h
    · cases h
  · rw [reader_turn_of_ne hs] at h
    rw [← hR s' held rest h]
    rcases x.reader s with ⟨held', _ | ⟨b, rest'⟩⟩ | _ | _
    · exact Command.Readers.held_hold_of_ne (Ne.symm hs)
    · exact Command.Readers.held_hold_of_ne (Ne.symm hs)
    · rfl
    · rfl

/-- What comes of a turn of a reader is what is forwarded for its read, given whether there are more reads. -/
private theorem forward_reads {name : String} {R : Command.Readers} {q : Reader} {chunks : List Chunk}
    (hR : ∀ held rest, q = .reading held rest → R.held s = held)
    (hchunks : chunks.any (·.stream = s) = q.turn.2.isReading) :
    Command.forward name R (reads s q ++ chunks) =
      q.turn.1.map (Command.lineEvent name s) ++ Command.forward name (holding R s q) chunks := by
  rcases q with ⟨held, _ | ⟨b, rest⟩⟩ | _ | _
  · have hlast : chunks.any (·.stream = s) = false := by
      rw [hchunks]
      simp only [Reader.turn]
      split <;> rfl
    simp [reads, holding, Command.forward, hR held [] rfl, hlast, Lines.feed, Reader.turn]
  · have hmore : chunks.any (·.stream = s) = true := hchunks
    simp [reads, holding, Command.forward, hR held _ rfl, hmore, Reader.turn]
  · rfl
  · rfl

/-- That read is the next part of the stream. -/
private theorem reads_rest (q : Reader) : Chunk.bytesOf s (reads s q) ++ q.turn.2.rest = q.rest ∧
    ((reads s q).any (·.stream = s) || q.turn.2.isReading) = q.isReading := by
  rcases q with ⟨held, _ | ⟨b, rest⟩⟩ | _ | _
  · refine ⟨?_, by simp [reads, Reader.isReading]⟩
    simp only [Reader.turn]
    split <;> simp [reads, Chunk.bytesOf, Reader.rest]
  all_goals simp [reads, Chunk.bytesOf, Reader.rest, Reader.turn, Reader.isReading]

private theorem reads_other {s' : Stream} (h : s' ≠ s) (q : Reader) :
    (reads s q).any (·.stream = s') = false := by
  rcases q with ⟨held, _ | ⟨b, rest⟩⟩ | _ | _ <;> simp [reads, Ne.symm h]

/-- The reads of the rest of a session, with one more in front, are those of the session. -/
private theorem reads_append {chunks : List Chunk}
    (h : ∀ s', Chunk.bytesOf s' chunks = ((x.turn c status (.reader s)).reader s').rest ∧
      chunks.any (·.stream = s') = ((x.turn c status (.reader s)).reader s').isReading) (s' : Stream) :
    Chunk.bytesOf s' (reads s (x.reader s) ++ chunks) = (x.reader s').rest ∧
      (reads s (x.reader s) ++ chunks).any (·.stream = s') = (x.reader s').isReading := by
  obtain ⟨hbytes, hany⟩ := h s'
  rw [Chunk.bytesOf_append, List.any_append, hbytes, hany]
  by_cases hs : s' = s
  · subst hs
    rw [reader_turn_self]
    exact reads_rest (x.reader s')
  · have hother := reads_other hs (x.reader s)
    rw [reader_turn_of_ne hs, Chunk.bytesOf_eq_nil (by simp [hother]), hother]
    exact ⟨rfl, rfl⟩

/-- What a session shows until it returns is what is forwarded for some reads of the streams: those before the child
has been waited for, and those after. -/
private theorem run_reads_from (hx : x.Joined) (hgoing : ∀ r, x.stage ≠ .returned r) {R : Command.Readers}
    (hR : ∀ s held rest, x.reader s = .reading held rest → R.held s = held)
    (h : (x.run c status schedule).stage = .returned r) : ∃ before after,
      (x.stage ≠ .waiting → before = []) ∧ r = c.result status ∧
      (x.run c status schedule).events =
        x.events ++ Command.forward c.displayName R (before ++ after) ++ c.closing status ∧
      ∀ s, Chunk.bytesOf s (before ++ after) = (x.reader s).rest ∧
        (before ++ after).any (·.stream = s) = (x.reader s).isReading := by
  induction schedule generalizing x R with
  | nil => exact absurd h (hgoing r)
  | cons p ps ih =>
    rw [run, List.foldl_cons] at h ⊢
    change ((x.turn c status p).run c status ps).stage = .returned r at h
    change ∃ before after, _ ∧ _ ∧ ((x.turn c status p).run c status ps).events = _ ∧ _
    cases p with
    | reader s =>
      obtain ⟨before, after, hbefore, hr, hevents, hreads⟩ :=
        ih (x := x.turn c status (.reader s)) (hx.turn _) hgoing (holding_held s hR) h
      have hmore : (before ++ after).any (·.stream = s) = (x.reader s).turn.2.isReading := by
        rw [(hreads s).2, reader_turn_self]
      have hshown : ((x.turn c status (.reader s)).run c status ps).events =
          x.events ++ Command.forward c.displayName R (reads s (x.reader s) ++ (before ++ after)) ++
            c.closing status := by
        rw [hevents, forward_reads (hR s) hmore]
        simp [turn]
      -- the read comes before the child has been waited for, or after
      by_cases hstage : x.stage = .waiting
      · refine ⟨reads s (x.reader s) ++ before, after, fun hne => absurd hstage hne, hr, ?_, ?_⟩
        · rw [hshown, List.append_assoc (reads s (x.reader s))]
        · simpa only [List.append_assoc] using reads_append hreads
      · obtain rfl := hbefore hstage
        exact ⟨[], reads s (x.reader s) ++ after, fun _ => rfl, hr, hshown, reads_append hreads⟩
    | main =>
      rcases turn_main c status hx with hturn | ⟨-, hturn⟩ | ⟨hstage, -, hturn⟩ | ⟨hstage, hboth, hturn⟩
      · rw [hturn] at h ⊢
        exact ih hx hgoing hR h
      · have hjoined : (x.turn c status .main).Joined := hx.turn .main
        rw [hturn] at h hjoined ⊢
        obtain ⟨before, after, hbefore, hr, hevents, hreads⟩ := ih hjoined (by simp) hR h
        obtain rfl := hbefore (by simp)
        exact ⟨[], after, fun _ => rfl, hr, hevents, hreads⟩
      · have hjoined : (x.turn c status .main).Joined := hx.turn .main
        rw [hturn] at h hjoined ⊢
        obtain ⟨before, after, hbefore, hr, hevents, hreads⟩ := ih hjoined (by simp) hR h
        exact ⟨before, after, fun _ => hbefore (by simp), hr, hevents, hreads⟩
      · have hjoined : (x.turn c status .main).Joined := hx.turn .main
        rw [hturn] at h hjoined ⊢
        rw [run_of_returned hjoined rfl] at h ⊢
        refine ⟨[], [], fun _ => rfl, (Stage.returned.inj h).symm, ?_, fun s => ?_⟩
        · simp [Command.forward]
        · rw [hboth s]
          exact ⟨rfl, rfl⟩

/-! ### Every session returns -/

private theorem turns_turn (q : Reader) : q.turn.2.turns ≤ q.turns - 1 := by
  rcases q with ⟨held, _ | ⟨b, rest⟩⟩ | _ | _
  · simp only [Reader.turn]
    split <;> simp [Reader.turns]
  all_goals simp [Reader.turn, Reader.turns]

private theorem turns_run (s : Stream) : ((x.run c status schedule).reader s).turns ≤
    (x.reader s).turns - schedule.count (.reader s) := by
  induction schedule generalizing x with
  | nil => simp [run]
  | cons p ps ih =>
    have hrest := ih (x := x.turn c status p)
    rw [run, List.foldl_cons]
    change ((((x.turn c status p)).run c status ps).reader s).turns ≤ _
    by_cases hp : p = .reader s
    · subst hp
      have hturn := turns_turn (x.reader s)
      rw [reader_turn_self] at hrest
      rw [List.count_cons_self]
      omega
    · have hsame : (x.turn c status p).reader s = x.reader s := by
        cases p with
        | reader s' => exact reader_turn_of_ne fun h => hp (by rw [h])
        | main =>
          unfold turn
          dsimp only
          repeat' split
          all_goals rfl
      rw [hsame] at hrest
      rwa [List.count_cons_of_ne hp]

/-- Once each reader has had a turn for every byte of its stream and two more, the session returns as soon as the task
that waits has had three, whatever the order was. -/
theorem returns (hturns : ∀ s, (streams s).length + 2 ≤ schedule.count (.reader s)) :
    ∃ r, ((start streams).run c status (schedule ++ [.main, .main, .main])).stage = .returned r := by
  have hclosed (s : Stream) : ((start streams).run c status schedule).reader s = .closed := by
    have hleft : (((start streams).run c status schedule).reader s).turns ≤
        ((start streams).reader s).turns - schedule.count (.reader s) := turns_run s
    have hstart : ((start streams).reader s).turns = (streams s).length + 2 := rfl
    have := hturns s
    rcases hreader : ((start streams).run c status schedule).reader s with _ | _ | _
    · rw [hreader, Reader.turns] at hleft
      omega
    · rw [hreader, Reader.turns] at hleft
      omega
    · rfl
  rw [run, List.foldl_append]
  change ∃ r, (List.foldl (turn c status) ((start streams).run c status schedule) _).stage = _
  rcases hstage : ((start streams).run c status schedule).stage with _ | (_ | _) | r
  all_goals by_cases hcode : status.code = 0 <;> simp [turn, hstage, hclosed, hcode]

/-! ### Every schedule -/

/-- A session that returns is a run of the command, whose child is read in the order of the session. -/
theorem run_reads (hlog : c.output = .log) (h : ((start streams).run c status schedule).stage = .returned r) :
    ∃ before after, (∀ s, Chunk.bytesOf s (before ++ after) = streams s) ∧ r = c.result status ∧
      ((start streams).run c status schedule).events.map .event =
        c.shownOutput (before ++ after) ++ (c.closing status).map .event := by
  obtain ⟨before, after, -, hr, hevents, hreads⟩ :=
    run_reads_from joined_start (by simp [start]) (R := {}) (fun s held rest hs => by
      obtain ⟨rfl, -⟩ := Reader.reading.inj hs
      cases s <;> rfl) h
  refine ⟨before, after, fun s => (hreads s).1, hr, ?_⟩
  rw [hevents, Command.shownOutput, hlog]
  simp [start]

/-- Whoever's turn it is when: a command whose child has ended forwards of each stream exactly its lines, in order, and
returns what its exit code says; it has completed only if that is 0, and after everything else.  This it returns under
every schedule that gives each reader turns enough, and this is what its run does, if the child is read in this order.
-/
theorem forwards_all (hlog : c.output = .log)
    (h : ((start streams).run c status schedule).stage = .returned r) :
    (∃ forwarded, ((start streams).run c status schedule).events = forwarded ++ c.closing status ∧
      (∀ e ∈ forwarded, e.source = .output ∧ ∃ s, e.isTagged s = true) ∧
      ∀ s, forwarded.filter (·.isTagged s) =
        (Lines.ofStream (streams s)).map (Command.lineEvent c.displayName s)) ∧
    r = c.result status ∧
    (∀ others : List Party, (∀ s, (streams s).length + 2 ≤ others.count (.reader s)) →
      ((start streams).run c status (others ++ [.main, .main, .main])).stage = .returned (c.result status)) ∧
    ∃ before after, (∀ s, Chunk.bytesOf s (before ++ after) = streams s) ∧
      ∀ (surroundings : Surroundings) (m : Machine) (call : Call) (tree : Tree),
        c.call surroundings m.tree = .ok call →
        surroundings.child m.calls call m.tree = ⟨before, status, after, tree⟩ →
        c.run surroundings m = (r,
          { tree
            calls := m.calls ++ [call]
            shown := m.shown ++
              (c.announced ++ ((start streams).run c status schedule).events).map .event }) := by
  obtain ⟨before, after, hstreams, hr, hshown⟩ := run_reads hlog h
  have hevents : ((start streams).run c status schedule).events =
      Command.forward c.displayName {} (before ++ after) ++ c.closing status := by
    rw [Command.shownOutput, hlog, ← List.map_append] at hshown
    exact List.map_injective_iff.2 (fun _ _ => Shown.event.inj) hshown
  refine ⟨⟨_, hevents, fun e he => ?_, fun s => ?_⟩, hr, fun others hturns => ?_, before, after, hstreams, ?_⟩
  · obtain ⟨s, line, rfl⟩ := Command.mem_forward he
    exact ⟨rfl, s, by simp [Command.lineEvent_isTagged]⟩
  · rw [Command.forward_filter, hstreams]
  · obtain ⟨r', hreturned⟩ : ∃ r', ((start streams).run c status (others ++ [.main, .main, .main])).stage =
        .returned r' := returns hturns
    obtain ⟨-, -, -, hr', -⟩ := run_reads hlog hreturned
    rw [hreturned, hr']
  · intro surroundings m call tree hcall hchild
    rw [Command.run_apply hcall, hchild, hr, List.map_append, hshown]
    simp [Outcome.chunks]

/-- A tree that holds one program. -/
def oneProgram : Tree := .ofEntries [([encode "tool"], .file (encode "#!") true)]

/-- What a child writes that is killed in the middle of a line. -/
def cutShort : Stream → Bytes
  | .stdout => encode "one\r\ntwo"
  | .stderr => encode "bad\n"

/-- The child is waited for while its streams are being read. -/
def intertwined : List Party :=
  List.replicate 3 (.reader .stdout) ++ [.main] ++ List.replicate 5 (.reader .stderr) ++ [.main] ++
    List.replicate 7 (.reader .stdout) ++ [.main, .main, .reader .stderr, .main]

theorem forwards_all_killed : ({ program := .ofText "/tool" } : Command).output = .log ∧ ∃ before after m',
    (∀ s, Chunk.bytesOf s (before ++ after) = cutShort s) ∧
    ({ program := .ofText "/tool" } : Command).run
        ⟨[], [], fun _ _ tree => ⟨before, .killed 9, after, tree⟩⟩ { tree := oneProgram } =
      (.error (.of (.nonZeroExit "/tool" (-1))), m') ∧
    m'.events.map (·.message) = ["exec", "spawned", "bad", "one", "two"] := by
  have hline : ({ program := .ofText "/tool" } : Command).line = "/tool" := by decide +kernel
  have h : ((start cutShort).run { program := .ofText "/tool" } (.killed 9) intertwined).stage =
      .returned (.error (.of (.nonZeroExit "/tool" (-1)))) := by
    rw [← hline]
    rfl
  have hcall : ({ program := .ofText "/tool" } : Command).call ⟨[], [], fun _ _ tree => { tree }⟩ oneProgram =
      .ok ⟨.ofText "/tool", [], []⟩ := by decide +kernel
  obtain ⟨-, -, -, before, after, hstreams, hrun⟩ := forwards_all rfl h
  refine ⟨rfl, before, after, _, hstreams,
    hrun ⟨[], [], _⟩ { tree := oneProgram } ⟨.ofText "/tool", [], []⟩ oneProgram hcall rfl, ?_⟩
  decide +kernel

end Session

end GradleBuild
