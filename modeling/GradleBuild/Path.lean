import GradleBuild.Text.Split
import GradleBuild.Text.Utf8

/-!
# Paths

A path is a row of bytes, read as names between slashes.  Everything here looks at the bytes only: nothing is
normalised, and no file is consulted.

An empty segment, and a segment `.` that is not the first of a relative path, stands for nothing (`isIdle`).  The
ancestors of a path are the path itself and what is left when its last segments are dropped one by one.

* `join_of_isAbsolute`: an absolute path on the right replaces the left.
-/

namespace GradleBuild

abbrev Name := Bytes

structure Path where
  bytes : Bytes
  deriving DecidableEq, Repr, Inhabited

/-- What a path consists of. -/
inductive Path.Part where
  | root
  | current
  | up
  | named (name : Name)
  deriving DecidableEq, Repr

namespace Path

def slash : UInt8 := 0x2F

def dot : UInt8 := 0x2E

def ofText (s : String) : Path := ⟨encode s⟩

/-- The text shown for a path. -/
def display (p : Path) : String := decodeLossy p.bytes

def isEmpty (p : Path) : Bool := p.bytes.isEmpty

def isAbsolute (p : Path) : Bool := p.bytes.head? == some slash

/-- `q` seen from `p`: one slash stands between them, unless `p` is empty or ends in a slash. -/
def join (p q : Path) : Path :=
  if q.isAbsolute then q
  else if p.bytes.isEmpty || p.bytes.getLast? == some slash then ⟨p.bytes ++ q.bytes⟩
  else ⟨p.bytes ++ slash :: q.bytes⟩

/-- A path that does not begin at the root is taken relative to `base`. -/
def absoluteFrom (base p : Path) : Path := if p.isAbsolute then p else base.join p

@[simp] theorem display_ofText (s : String) : (ofText s).display = s := decodeLossy_encode s

theorem ofText_injective {s t : String} (h : ofText s = ofText t) : s = t := encode_injective (congrArg bytes h)

theorem isEmpty_ofText {s : String} (hs : s ≠ "") : (ofText s).isEmpty = false := by
  rw [isEmpty, List.isEmpty_eq_false_iff]
  intro h
  exact hs (encode_injective h)

theorem join_of_isAbsolute {p q : Path} (h : q.isAbsolute = true) : p.join q = q := by
  simp [join, h]

theorem isAbsolute_join {p : Path} (h : p.isAbsolute = true) (q : Path) : (p.join q).isAbsolute = true := by
  unfold join
  split
  · assumption
  · obtain ⟨bs⟩ := p
    cases bs with
    | nil => simp [isAbsolute] at h
    | cons b bs =>
      split <;> simpa [isAbsolute] using h

theorem isAbsolute_absoluteFrom {base : Path} (h : base.isAbsolute = true) (p : Path) :
    (absoluteFrom base p).isAbsolute = true := by
  unfold absoluteFrom
  split
  · assumption
  · exact isAbsolute_join h p

/-! ### Segments -/

def segments (p : Path) : List Bytes := pieces (· == slash) p.bytes

/-- Whether a segment after the first stands for nothing. -/
def isIdle (s : Bytes) : Bool := s.isEmpty || s == [dot]

def partOf (s : Bytes) : Part := if s = [dot, dot] then .up else .named s

/-- The parts of a path; only at the start of a relative path does `.` count as one. -/
def parts (p : Path) : List Part :=
  match p.segments with
  | [] => []
  | first :: rest =>
    let start : List Part :=
      if p.isAbsolute then [.root]
      else if first.isEmpty then []
      else if first = [dot] then [.current]
      else [partOf first]
    start ++ (rest.filter (!isIdle ·)).map partOf

/-- The path of a first segment and of others behind it, last first. -/
def assemble (first : Bytes) (others : List Bytes) : Path :=
  ⟨List.intercalate [slash] (first :: others.reverse)⟩

/-- The paths that end at the segments of `others`, given last first, and then the start itself. -/
def heads (first : Bytes) (absolute : Bool) : List Bytes → List Path
  | [] => if absolute then [⟨[slash]⟩] else if first.isEmpty then [⟨[]⟩] else [⟨first⟩, ⟨[]⟩]
  | s :: before =>
    if isIdle s then heads first absolute before else assemble first (s :: before) :: heads first absolute before

/-- The heads of a path, the longest first. -/
def allHeads (p : Path) : List Path :=
  match p.segments with
  | [] => []
  | first :: rest => heads first p.isAbsolute rest.reverse

/-- The path itself, then the directories above it, innermost first. -/
def ancestors (p : Path) : List Path := p :: p.allHeads.tail

/-- The directory above, if there is one. -/
def parent? (p : Path) : Option Path := p.ancestors[1]?

/-- The path without slashes and `.` behind its last name. -/
def trimmed (p : Path) : Path := p.allHeads.headD p

/-- The last name, if the path ends in one. -/
def fileName? (p : Path) : Option Name :=
  match p.parts.getLast? with
  | some (.named n) => some n
  | _ => none

/-- The last name without what follows its last dot; a dot at the very start does not count. -/
def fileStem? (p : Path) : Option Name :=
  p.fileName?.map fun n =>
    match n.reverse.dropWhile (· != dot) with
    | [] | [_] => n
    | _ :: before => before.reverse

/-- The path with `suffix` written behind its last name, if it ends in a name. -/
def withSuffix? (p : Path) (suffix : String) : Option Path :=
  p.fileName?.map fun _ => ⟨p.trimmed.bytes ++ encode suffix⟩

/-! ### Relative paths -/

def Part.bytes : Part → Bytes
  | .root => [slash]
  | .current => [dot]
  | .up => [dot, dot]
  | .named n => n

/-- The path of some parts. -/
def ofParts (ps : List Part) : Path := ps.foldl (fun p a => p.join ⟨a.bytes⟩) ⟨[]⟩

/-- The parts that lead from the directory `base` to `p`: what both begin with is left out, and `..` leaves each
further part of `base`. -/
def stepsBetween : List Part → List Part → List Part
  | a :: as, b :: bs => if a = b then stepsBetween as bs else (b :: bs).map (fun _ => .up) ++ a :: as
  | as, bs => bs.map (fun _ => .up) ++ as

/-- The path of `p` as seen from the directory `base`; `base` holds neither `.` nor `..`. -/
def relativeTo (p base : Path) : Path := ofParts (stepsBetween p.parts base.parts)

end Path

end GradleBuild
