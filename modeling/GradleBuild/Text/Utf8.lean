/-!
# Bytes and text

Arguments, paths, file contents and the output of a child are bytes; keys, values and messages are text.  Text is
written as UTF-8, and bytes are read leniently: `decodeLossy` turns each maximal ill-formed run, the longest start of
a character that the next byte breaks off, into one U+FFFD.

The reader is a machine that takes one byte at a time and holds at most one unfinished character (`Pending`).

* `decodeFrom_append_ascii`: an ASCII byte ends whatever came before it, so reading can be cut at it.
* `decode?` reads well-formed UTF-8 only.
* `decode?_encode`: text that was written is read back.
-/

namespace GradleBuild

abbrev Bytes := List UInt8

namespace Utf8

/-- A character of which the first byte has been read: how many more bytes it needs, the range of the next one, and
the bits so far. -/
structure Pending where
  missing : Nat
  low : UInt8
  high : UInt8
  code : Nat
  deriving DecidableEq, Repr

def replacement : Char := '\uFFFD'

/-- What a byte between characters gives: the text it completes, and the character it begins. -/
def start (b : UInt8) : List Char × Option Pending :=
  if b < 0x80 then ([Char.ofNat b.toNat], none)
  else if b < 0xC2 then ([replacement], none)
  else if b < 0xE0 then ([], some ⟨1, 0x80, 0xBF, b.toNat % 0x20⟩)
  else if b = 0xE0 then ([], some ⟨2, 0xA0, 0xBF, 0⟩)
  else if b = 0xED then ([], some ⟨2, 0x80, 0x9F, 0xD⟩)
  else if b < 0xF0 then ([], some ⟨2, 0x80, 0xBF, b.toNat % 0x10⟩)
  else if b = 0xF0 then ([], some ⟨3, 0x90, 0xBF, 0⟩)
  else if b < 0xF4 then ([], some ⟨3, 0x80, 0xBF, b.toNat % 0x8⟩)
  else if b = 0xF4 then ([], some ⟨3, 0x80, 0x8F, 4⟩)
  else ([replacement], none)

/-- One byte after the state `q`; a byte that does not continue the pending character is read afresh. -/
def step (q : Option Pending) (b : UInt8) : List Char × Option Pending :=
  match q with
  | none => start b
  | some p =>
    if p.low ≤ b ∧ b ≤ p.high then
      let code := p.code * 0x40 + b.toNat % 0x40
      if p.missing ≤ 1 then ([Char.ofNat code], none) else ([], some ⟨p.missing - 1, 0x80, 0xBF, code⟩)
    else
      (replacement :: (start b).1, (start b).2)

/-- Where the bytes end, an unfinished character is ill-formed. -/
def flush : Option Pending → List Char
  | none => []
  | some _ => [replacement]

def decodeFrom (q : Option Pending) : Bytes → List Char
  | [] => flush q
  | b :: bs => (step q b).1 ++ decodeFrom (step q b).2 bs

/-- The characters of some bytes, and between them the ill-formed runs as bytes; `held` are the bytes of the pending
character. -/
def partsFrom (q : Option Pending) (held : Bytes) : Bytes → List (Char ⊕ Bytes)
  | [] => if held.isEmpty then [] else [.inr held]
  | b :: bs =>
    match q with
    | some p =>
      if p.low ≤ b ∧ b ≤ p.high then
        match step q b with
        | (c :: _, _) => .inl c :: partsFrom none [] bs
        | ([], r) => partsFrom r (held ++ [b]) bs
      else .inr held :: fresh b bs
    | none => fresh b bs
where
  fresh (b : UInt8) (bs : Bytes) : List (Char ⊕ Bytes) :=
    match start b with
    | (_ :: _, _) => (if b < 0x80 then .inl (Char.ofNat b.toNat) else .inr [b]) :: partsFrom none [] bs
    | ([], r) => partsFrom r [b] bs

/-- The characters of some bytes, and between them the ill-formed runs as bytes. -/
def parts (bs : Bytes) : List (Char ⊕ Bytes) := partsFrom none [] bs

end Utf8

/-- The text of bytes, each maximal ill-formed run replaced by U+FFFD. -/
def decodeLossy (bs : Bytes) : String := String.ofList (Utf8.decodeFrom none bs)

/-- The UTF-8 form of a text. -/
def encode (s : String) : Bytes := s.toList.flatMap String.utf8EncodeChar

/-- The text of well-formed UTF-8: the only text whose UTF-8 form is `bs`. -/
def decode? (bs : Bytes) : Option String :=
  if encode (decodeLossy bs) = bs then some (decodeLossy bs) else none

namespace Utf8

theorem start_ascii {b : UInt8} (h : b < 0x80) : start b = ([Char.ofNat b.toNat], none) := by
  simp [start, h]

private theorem step_ascii {q : Option Pending} {b : UInt8} (h : b < 0x80)
    (hq : ∀ p, q = some p → 0x80 ≤ p.low) : step q b = (flush q ++ [Char.ofNat b.toNat], none) := by
  cases q with
  | none => simp [step, flush, start_ascii h]
  | some p =>
    have hl := hq p rfl
    have : ¬(p.low ≤ b ∧ b ≤ p.high) := fun hc => by
      have h1 := UInt8.le_iff_toNat_le.mp hc.1
      have h2 := UInt8.lt_iff_toNat_lt.mp h
      have h3 := UInt8.le_iff_toNat_le.mp hl
      omega
    simp [step, flush, this, start_ascii h]

private theorem low_start (b : UInt8) : ∀ p, (start b).2 = some p → 0x80 ≤ p.low := by
  intro p
  unfold start
  repeat' split
  all_goals intro h
  all_goals simp only [reduceCtorEq, Option.some.injEq] at h
  all_goals subst h; simp

private theorem low_step (q : Option Pending) (b : UInt8) : ∀ p, (step q b).2 = some p → 0x80 ≤ p.low := by
  intro p h
  unfold step at h
  split at h
  · exact low_start b p h
  · split at h
    · split at h
      · simp at h
      · simp only [Option.some.injEq] at h
        subst h; simp
    · exact low_start b p h

/-- An ASCII byte ends whatever came before it, so reading can be cut at it. -/
theorem decodeFrom_append_ascii {q : Option Pending} {b : UInt8} (h : b < 0x80)
    (hq : ∀ p, q = some p → 0x80 ≤ p.low) (xs ys : Bytes) :
    decodeFrom q (xs ++ b :: ys) = decodeFrom q xs ++ Char.ofNat b.toNat :: decodeFrom none ys := by
  induction xs generalizing q with
  | nil => simp [decodeFrom, step_ascii h hq]
  | cons x xs ih => simp [decodeFrom, ih (low_step q x)]

/-! ### Reading what was written -/

private theorem decodeFrom_start {b : UInt8} {p : Pending} (h : start b = ([], some p)) (bs : Bytes) :
    decodeFrom none (b :: bs) = decodeFrom (some p) bs := by
  have hstep : step none b = ([], some p) := h
  rw [decodeFrom, hstep]
  rfl

private theorem start_two {n : Nat} (h : 2 ≤ n) (h' : n < 32) :
    start (UInt8.ofNat (n + 192)) = ([], some ⟨1, 0x80, 0xBF, n⟩) := by
  have hall : ∀ n < 32, 2 ≤ n → start (UInt8.ofNat (n + 192)) = ([], some ⟨1, 0x80, 0xBF, n⟩) := by decide
  exact hall n h' h

private theorem start_three {n : Nat} (h : n < 16) : start (UInt8.ofNat (n + 224)) =
    ([], some ⟨2, if n = 0 then 0xA0 else 0x80, if n = 0xD then 0x9F else 0xBF, n⟩) := by
  have hall : ∀ n < 16, start (UInt8.ofNat (n + 224)) =
      ([], some ⟨2, if n = 0 then 0xA0 else 0x80, if n = 0xD then 0x9F else 0xBF, n⟩) := by decide
  exact hall n h

private theorem start_four {n : Nat} (h : n < 5) : start (UInt8.ofNat (n + 240)) =
    ([], some ⟨3, if n = 0 then 0x90 else 0x80, if n = 4 then 0x8F else 0xBF, n⟩) := by
  have hall : ∀ n < 5, start (UInt8.ofNat (n + 240)) =
      ([], some ⟨3, if n = 0 then 0x90 else 0x80, if n = 4 then 0x8F else 0xBF, n⟩) := by decide
  exact hall n h

/-- A byte that continues a character adds six bits to it. -/
private theorem decodeFrom_continued {p : Pending} {n : Nat} (hn : n < 64) (hlow : p.low.toNat ≤ n + 128)
    (hhigh : n + 128 ≤ p.high.toNat) (bs : Bytes) : decodeFrom (some p) (UInt8.ofNat (n + 128) :: bs) =
      if p.missing ≤ 1 then Char.ofNat (p.code * 64 + n) :: decodeFrom none bs
      else decodeFrom (some ⟨p.missing - 1, 0x80, 0xBF, p.code * 64 + n⟩) bs := by
  have hbyte : (UInt8.ofNat (n + 128)).toNat = n + 128 := by
    rw [UInt8.toNat_ofNat']
    omega
  have hrange : p.low ≤ UInt8.ofNat (n + 128) ∧ UInt8.ofNat (n + 128) ≤ p.high := by
    rw [UInt8.le_iff_toNat_le, UInt8.le_iff_toNat_le, hbyte]
    exact ⟨hlow, hhigh⟩
  have hbits : (n + 128) % 64 = n := by omega
  simp only [decodeFrom, step, if_pos hrange, hbyte, hbits]
  split <;> rfl

private theorem decodeFrom_last {low high : UInt8} {code n : Nat} (hn : n < 64) (hlow : low.toNat ≤ n + 128)
    (hhigh : n + 128 ≤ high.toNat) (bs : Bytes) :
    decodeFrom (some ⟨1, low, high, code⟩) (UInt8.ofNat (n + 128) :: bs) =
      Char.ofNat (code * 64 + n) :: decodeFrom none bs := by
  rw [decodeFrom_continued (p := ⟨1, low, high, code⟩) hn hlow hhigh, if_pos (Nat.le_refl 1)]

private theorem decodeFrom_more {low high : UInt8} {code missing n : Nat} (hn : n < 64) (hlow : low.toNat ≤ n + 128)
    (hhigh : n + 128 ≤ high.toNat) (bs : Bytes) :
    decodeFrom (some ⟨missing + 2, low, high, code⟩) (UInt8.ofNat (n + 128) :: bs) =
      decodeFrom (some ⟨missing + 1, 0x80, 0xBF, code * 64 + n⟩) bs := by
  rw [decodeFrom_continued (p := ⟨missing + 2, low, high, code⟩) hn hlow hhigh, if_neg (by simp)]
  rfl

private theorem decodeFrom_char (c : Char) (bs : Bytes) :
    decodeFrom none (String.utf8EncodeChar c ++ bs) = c :: decodeFrom none bs := by
  have hvalid : c.val.toNat < 0xD800 ∨ 0xDFFF < c.val.toNat ∧ c.val.toNat < 0x110000 := c.valid
  have hc : Char.ofNat c.val.toNat = c := Char.ofNat_toNat c
  have hfirst : (0x80 : UInt8).toNat = 128 := rfl
  have hlast : (0xBF : UInt8).toNat = 191 := rfl
  unfold String.utf8EncodeChar
  generalize c.val.toNat = v at hvalid hc
  dsimp only
  by_cases h₁ : v ≤ 127
  · have hbyte : (UInt8.ofNat v).toNat = v := by
      rw [UInt8.toNat_ofNat']
      omega
    have hascii : UInt8.ofNat v < 0x80 := by
      rw [UInt8.lt_iff_toNat_lt, hbyte]
      exact Nat.lt_succ_of_le h₁
    rw [if_pos h₁]
    simp only [List.cons_append, List.nil_append, decodeFrom, step, start_ascii hascii, hbyte, hc]
  rw [if_neg h₁]
  by_cases h₂ : v ≤ 2047
  · have hcode : v / 64 % 32 * 64 + v % 64 = v := by omega
    rw [if_pos h₂, List.cons_append, List.cons_append, List.nil_append,
      decodeFrom_start (start_two (by omega) (by omega)), decodeFrom_last (by omega) (by omega) (by omega), hcode, hc]
  rw [if_neg h₂]
  by_cases h₃ : v ≤ 65535
  · have hcode : (v / 4096 % 16 * 64 + v / 64 % 64) * 64 + v % 64 = v := by omega
    -- the second byte is bounded more narrowly where a shorter form or a surrogate would begin
    have hlow : (if v / 4096 % 16 = 0 then 0xA0 else 0x80 : UInt8).toNat ≤ v / 64 % 64 + 128 := by
      split
      · have : (0xA0 : UInt8).toNat = 160 := rfl
        omega
      · omega
    have hhigh : v / 64 % 64 + 128 ≤ (if v / 4096 % 16 = 0xD then 0x9F else 0xBF : UInt8).toNat := by
      split
      · have : (0x9F : UInt8).toNat = 159 := rfl
        omega
      · omega
    rw [if_pos h₃, List.cons_append, List.cons_append, List.cons_append, List.nil_append,
      decodeFrom_start (start_three (by omega)), decodeFrom_more (by omega) hlow hhigh,
      decodeFrom_last (by omega) (by omega) (by omega), hcode, hc]
  · have hcode : ((v / 262144 % 8 * 64 + v / 4096 % 64) * 64 + v / 64 % 64) * 64 + v % 64 = v := by omega
    have hlow : (if v / 262144 % 8 = 0 then 0x90 else 0x80 : UInt8).toNat ≤ v / 4096 % 64 + 128 := by
      split
      · have : (0x90 : UInt8).toNat = 144 := rfl
        omega
      · omega
    have hhigh : v / 4096 % 64 + 128 ≤ (if v / 262144 % 8 = 4 then 0x8F else 0xBF : UInt8).toNat := by
      split
      · have : (0x8F : UInt8).toNat = 143 := rfl
        omega
      · omega
    rw [if_neg h₃, List.cons_append, List.cons_append, List.cons_append, List.cons_append, List.nil_append,
      decodeFrom_start (start_four (by omega)), decodeFrom_more (by omega) hlow hhigh,
      decodeFrom_more (by omega) (by omega) (by omega), decodeFrom_last (by omega) (by omega) (by omega), hcode, hc]

end Utf8

theorem decodeLossy_encode (s : String) : decodeLossy (encode s) = s := by
  have hchars : ∀ cs : List Char, Utf8.decodeFrom none (cs.flatMap String.utf8EncodeChar) = cs := by
    intro cs
    induction cs with
    | nil => rfl
    | cons c cs ih => rw [List.flatMap_cons, Utf8.decodeFrom_char, ih]
  rw [decodeLossy, encode, hchars, String.ofList_toList]

/-- Text that was written is read back. -/
theorem decode?_encode (s : String) : decode? (encode s) = some s := by
  rw [decode?, decodeLossy_encode, if_pos rfl]

theorem encode_injective {s t : String} (h : encode s = encode t) : s = t := by
  have hdecode := decode?_encode s
  rw [h, decode?_encode] at hdecode
  exact (Option.some.inj hdecode).symm

/-- An ASCII byte stands for itself: it is in the form of no other character. -/
theorem eq_of_mem_utf8EncodeChar {c : Char} {b : UInt8} (h : b ∈ String.utf8EncodeChar c) (hb : b < 0x80) :
    c = Char.ofNat b.toNat := by
  have hc : Char.ofNat c.val.toNat = c := Char.ofNat_toNat c
  rw [UInt8.lt_iff_toNat_lt] at hb
  have hsmall : (0x80 : UInt8).toNat = 128 := rfl
  unfold String.utf8EncodeChar at h
  generalize c.val.toNat = v at h hc
  dsimp only at h
  have hbyte (n : Nat) (hn : n < 256) : (UInt8.ofNat n).toNat = n := by
    rw [UInt8.toNat_ofNat']
    omega
  split at h
  · rename_i hv
    rw [List.mem_singleton.1 h, hbyte v (by omega), hc]
  · exfalso
    -- all bytes of a longer form are large
    have hlarge : ∃ n, n < 256 ∧ 128 ≤ n ∧ b = UInt8.ofNat n := by
      split at h
      · simp only [List.mem_cons, List.not_mem_nil, or_false] at h
        rcases h with rfl | rfl
        · exact ⟨_, by omega, by omega, rfl⟩
        · exact ⟨_, by omega, by omega, rfl⟩
      · split at h
        · simp only [List.mem_cons, List.not_mem_nil, or_false] at h
          rcases h with rfl | rfl | rfl
          · exact ⟨_, by omega, by omega, rfl⟩
          · exact ⟨_, by omega, by omega, rfl⟩
          · exact ⟨_, by omega, by omega, rfl⟩
        · simp only [List.mem_cons, List.not_mem_nil, or_false] at h
          rcases h with rfl | rfl | rfl | rfl
          · exact ⟨_, by omega, by omega, rfl⟩
          · exact ⟨_, by omega, by omega, rfl⟩
          · exact ⟨_, by omega, by omega, rfl⟩
          · exact ⟨_, by omega, by omega, rfl⟩
    obtain ⟨n, hn, hlow, rfl⟩ := hlarge
    rw [hbyte n hn] at hb
    omega

end GradleBuild
