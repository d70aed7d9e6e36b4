import GradleBuild.Proofs.Decimals
import GradleBuild.Toml.Reader
import Mathlib.Data.List.TakeWhile
import Mathlib.Tactic.ByContra

/-!
# Texts of TOML

A setting can be written as a TOML text of two lines, a header and an assignment, whatever the text it is given: a
string on one line shows all characters but some, and has codes for those (`escaped`).  An integer can be written so
as well, and then its size does not matter before the text as a whole has been read (`fields?`).

* `basicFrom_escaped`, `string?_written`: such a string is read back.
* `fields?_assignmentText`: so is a setting, if its value is.
* `read_written`, `fields?_integer`: a setting with a text, and one with an integer.
-/

namespace GradleBuild.Toml

/-! ### Strings -/

/-- A character as it stands in a string on one line. -/
def escaped (c : Char) : List Char :=
  if isPlain c && c != '"' && c != '\\' then [c]
  else ['\\', 'u', '0', '0', Nat.digitChar (c.toNat / 16), Nat.digitChar (c.toNat % 16)]

/-- A text as a string on one line. -/
def written (s : String) : List Char := '"' :: (s.toList.flatMap escaped ++ ['"'])

private theorem hexEscape?_code {c : Char} (h : c.toNat < 128) (rest : List Char) :
    hexEscape? 4 ('0' :: '0' :: Nat.digitChar (c.toNat / 16) :: Nat.digitChar (c.toNat % 16) :: rest) =
      some (c, rest) := by
  have hcodes : ∀ n < 128, Digits.read? 16 ['0', '0', Nat.digitChar (n / 16), Nat.digitChar (n % 16)] = some n := by
    decide
  have hsmall : c.toNat < 0xD800 := by omega
  have hcharacter : character? c.toNat = some c := by
    rw [character?, if_pos (Or.inl hsmall), Char.ofNat_toNat]
  simp only [hexEscape?, List.take_succ_cons, List.take_zero, hcodes c.toNat h, Option.bind_some, hcharacter]
  rfl

/-- Only some characters of ASCII are shown by their codes. -/
private theorem code_lt {c : Char} (h : ¬(isPlain c && c != '"' && c != '\\') = true) : c.toNat < 128 := by
  by_contra hlarge
  have hplain : isPlain c = true := by
    have hbounds : 0x20 ≤ c.toNat ∧ c.toNat ≠ 0x7F := by omega
    simp [isPlain, hbounds.1, hbounds.2]
  have hquote : c ≠ '"' := by
    rintro rfl
    exact hlarge (by decide)
  have hslash : c ≠ '\\' := by
    rintro rfl
    exact hlarge (by decide)
  exact h (by simp [hplain, hquote, hslash])

theorem basicFrom_escaped (cs rest : List Char) {fuel : Nat} (h : cs.length < fuel) :
    basicFrom fuel (cs.flatMap escaped ++ '"' :: rest) = some (cs, rest) := by
  induction cs generalizing fuel with
  | nil =>
    obtain ⟨fuel, rfl⟩ : ∃ n, fuel = n + 1 := ⟨fuel - 1, by simp at h; omega⟩
    rfl
  | cons c cs ih =>
    obtain ⟨fuel, rfl⟩ : ∃ n, fuel = n + 1 := ⟨fuel - 1, by simp at h; omega⟩
    have hrest : basicFrom fuel (cs.flatMap escaped ++ '"' :: rest) = some (cs, rest) := ih (by simpa using h)
    rw [List.flatMap_cons, List.append_assoc, escaped]
    split
    · rename_i hshown
      simp only [Bool.and_eq_true, bne_iff_ne] at hshown
      obtain ⟨⟨hplain, hquote⟩, hslash⟩ := hshown
      simp [basicFrom, hplain, hrest]
    · rename_i hcode
      have hescape : escape? ('u' :: '0' :: '0' :: Nat.digitChar (c.toNat / 16) :: Nat.digitChar (c.toNat % 16) ::
          (cs.flatMap escaped ++ '"' :: rest)) = some (c, cs.flatMap escaped ++ '"' :: rest) :=
        hexEscape?_code (code_lt hcode) _
      simp only [List.cons_append, List.nil_append, basicFrom, hescape, hrest, Option.map_some]

private theorem length_le_escaped (cs : List Char) : cs.length ≤ (cs.flatMap escaped).length := by
  induction cs with
  | nil => exact Nat.le_refl _
  | cons c cs ih =>
    have hone : 1 ≤ (escaped c).length := by
      unfold escaped
      split <;> simp
    rw [List.flatMap_cons, List.length_append, List.length_cons]
    omega

/-- One quotation mark begins a string on one line. -/
private theorem string?_basic {d : Char} (hd : d ≠ '"') (tail : List Char) : string? ('"' :: d :: tail) =
    (basicFrom (('"' :: d :: tail).length + 1) (d :: tail)).map fun (s, rest) => (String.ofList s, rest) := by
  unfold string?
  dsimp only
  split
  · rename_i heq
    exact absurd (List.cons.inj (List.cons.inj heq).2).1 hd
  · rename_i heq
    exact absurd (List.cons.inj heq).1 (by decide)
  · rename_i heq
    rw [← (List.cons.inj heq).2]
  · rename_i heq
    exact absurd (List.cons.inj heq).1 (by decide)
  · rename_i hother _
    exact absurd rfl (hother (d :: tail))

/-- A text is read back from its string. -/
theorem string?_written {s : String} (h : s ≠ "") (rest : List Char) :
    string? (written s ++ rest) = some (s, rest) := by
  obtain ⟨c, cs, hs⟩ : ∃ c cs, s.toList = c :: cs := List.exists_cons_of_ne_nil (by simpa using h)
  -- the mark at the start stands alone
  obtain ⟨d, tail, hd, htail⟩ : ∃ d tail, d ≠ '"' ∧ s.toList.flatMap escaped ++ '"' :: rest = d :: tail := by
    rw [hs, List.flatMap_cons, escaped]
    split
    · rename_i hshown
      simp only [Bool.and_eq_true, bne_iff_ne] at hshown
      exact ⟨c, _, hshown.1.2, rfl⟩
    · exact ⟨'\\', _, by decide, rfl⟩
  have hwritten : written s ++ rest = '"' :: d :: tail := by
    rw [written, List.cons_append, List.append_assoc, ← htail]
    rfl
  have hlength : s.toList.length < ('"' :: d :: tail).length + 1 := by
    have hle := length_le_escaped s.toList
    rw [← htail]
    simp only [List.length_cons, List.length_append]
    omega
  have hread := basicFrom_escaped s.toList rest hlength
  rw [htail] at hread
  rw [hwritten, string?_basic hd, hread]
  simp only [Option.map_some, String.ofList_toList]

/-! ### Keys -/

variable {name title : String} {cs rest : List Char}

/-- A text that can stand for itself as a name of a key. -/
def IsBare (name : String) : Prop := name ≠ "" ∧ ∀ c ∈ name.toList, isBareKeyChar c = true

private theorem IsBare.exists_cons (h : IsBare name) : ∃ c cs, name.toList = c :: cs ∧ isBareKeyChar c = true := by
  obtain ⟨c, cs, hname⟩ : ∃ c cs, name.toList = c :: cs := List.exists_cons_of_ne_nil (by simpa using h.1)
  exact ⟨c, cs, hname, h.2 c (by rw [hname]; exact List.mem_cons_self)⟩

private theorem ne_of_bare {c d : Char} (hc : isBareKeyChar c = true) (hd : isBareKeyChar d = false) : c ≠ d := by
  rintro rfl
  rw [hc] at hd
  cases hd

private theorem not_blank_of_bare {c : Char} (hc : isBareKeyChar c = true) : isInlineBlank c = false := by
  have hspace : c ≠ ' ' := ne_of_bare hc (by decide)
  have htab : c ≠ '\t' := ne_of_bare hc (by decide)
  simp [isInlineBlank, hspace, htab]

private theorem keyName?_bare (h : IsBare name) (hrest : ∀ c ∈ rest.head?, isBareKeyChar c = false) :
    keyName? (name.toList ++ rest) = some (name, rest) := by
  obtain ⟨c, cs, hname, hc⟩ := h.exists_cons
  have hquotes : c ≠ '"' ∧ c ≠ '\'' := ⟨ne_of_bare hc (by decide), ne_of_bare hc (by decide)⟩
  have htake : (name.toList ++ rest).takeWhile isBareKeyChar = name.toList := by
    rw [List.takeWhile_append_of_pos h.2]
    cases rest with
    | nil => simp
    | cons d rest => simp [hrest d rfl]
  have hdrop : (name.toList ++ rest).drop name.toList.length = rest := List.drop_left
  unfold keyName?
  have hne : name.toList.isEmpty = false := by rw [hname]; rfl
  split
  · rename_i heq
    rw [hname] at heq
    exact absurd (List.cons.inj heq).1 hquotes.1
  · rename_i heq
    rw [hname] at heq
    exact absurd (List.cons.inj heq).1 hquotes.2
  · simp only [htake, hne, hdrop, Bool.false_eq_true, if_false, String.ofList_toList]

private theorem key?_bare (h : IsBare name) (hrest : ∀ c ∈ rest.head?, isBareKeyChar c = false)
    (hdot : (skipBlanks rest).head? ≠ some '.') : key? (name.toList ++ rest) = some ([name], skipBlanks rest) := by
  obtain ⟨c, cs, hname, hc⟩ := h.exists_cons
  have hskip : skipBlanks (name.toList ++ rest) = name.toList ++ rest := by
    rw [hname]
    exact List.dropWhile_cons_of_neg (by simp [not_blank_of_bare hc])
  unfold key?
  rw [keyFrom, hskip, keyName?_bare h hrest]
  dsimp only
  split
  · rename_i heq
    rw [heq] at hdot
    exact absurd rfl hdot
  · rfl

/-! ### Settings -/

/-- What a text says, before its numbers are asked to fit 64 bits. -/
def fields? (s : String) : Option (List (String × Value)) :=
  let cs := dropByteOrderMark s.toList
  (linesFrom (cs.length + 1) {} cs).map fun a => valuesOf a.fields

theorem read_eq (s : String) : read s =
    match fields? s with
    | none => .error .malformed
    | some fields => (documentsOfFields fields).mapError .number := by
  unfold read fields?
  dsimp only
  cases linesFrom ((dropByteOrderMark s.toList).length + 1) {} (dropByteOrderMark s.toList) <;> rfl

/-- A text that sets one name in one table to a value. -/
def assignmentText (title name : String) (value : List Char) : List Char :=
  '[' :: (title.toList ++ ']' :: '\n' :: (name.toList ++ ' ' :: '=' :: ' ' :: (value ++ ['\n'])))

/-- A text that sets one name in one table. -/
def settingText (title name s : String) : List Char :=
  '[' :: (title.toList ++ ']' :: '\n' :: (name.toList ++ ' ' :: '=' :: ' ' :: (written s ++ ['\n'])))

private theorem line?_header (ht : IsBare title) (rest : List Char) :
    line? ('[' :: (title.toList ++ ']' :: '\n' :: rest)) = some (some (.header [] title), rest) := by
  have hclose : isBareKeyChar ']' = false := by decide
  have hkey : key? (title.toList ++ ']' :: '\n' :: rest) = some ([title], ']' :: '\n' :: rest) :=
    key?_bare ht (by simp [hclose]) (by simp [skipBlanks, isInlineBlank])
  have hheader : header? (title.toList ++ ']' :: '\n' :: rest) = some (([], title), ']' :: '\n' :: rest) := by
    unfold header?
    rw [hkey]
    rfl
  obtain ⟨c, cs, htitle, hc⟩ := ht.exists_cons
  have hopen : c ≠ '[' := ne_of_bare hc (by decide)
  unfold line?
  have hskip : skipBlanks ('[' :: (title.toList ++ ']' :: '\n' :: rest)) =
      '[' :: (title.toList ++ ']' :: '\n' :: rest) := rfl
  rw [hskip]
  split
  · rename_i heq
    cases heq
  · rename_i heq
    rw [htitle] at heq
    exact absurd (List.cons.inj (List.cons.inj heq).2).1 hopen
  · rename_i heq
    rw [← (List.cons.inj heq).2, hheader]
    rfl
  · rename_i hsingle heq
    exact absurd (List.cons.inj heq).1.symm hsingle

private theorem value?_written {s : String} (hs : s ≠ "") (rest : List Char) :
    value? maxDepth (written s ++ rest) = some (.scalar (.text s), rest) := by
  have hstring := string?_written hs rest
  rw [written, List.cons_append] at hstring ⊢
  unfold value?
  split
  · rename_i heq
    exact absurd (List.cons.inj heq).1 (by decide)
  · rename_i heq
    exact absurd (List.cons.inj heq).1 (by decide)
  · rename_i heq
    rw [← (List.cons.inj heq).1, if_pos (Or.inl rfl), hstring]
    rfl
  · rename_i heq
    cases heq

private theorem line?_assignment (hn : IsBare name) {value : List Char} {v : Value}
    (hv : value? maxDepth (value ++ ['\n']) = some (v, ['\n']))
    (hblank : skipBlanks (value ++ ['\n']) = value ++ ['\n']) :
    line? (name.toList ++ ' ' :: '=' :: ' ' :: (value ++ ['\n'])) = some (some (.assignment [name] v), []) := by
  obtain ⟨c, cs, hname, hc⟩ := hn.exists_cons
  have hspace : isBareKeyChar ' ' = false := by decide
  have hkey : key? (name.toList ++ ' ' :: '=' :: ' ' :: (value ++ ['\n'])) =
      some ([name], '=' :: ' ' :: (value ++ ['\n'])) :=
    key?_bare hn (by simp [hspace]) (by simp [skipBlanks, isInlineBlank])
  have hassignment : assignment? (value? maxDepth) (name.toList ++ ' ' :: '=' :: ' ' :: (value ++ ['\n'])) =
      some (([name], v), ['\n']) := by
    have hvalue : skipBlanks (' ' :: (value ++ ['\n'])) = value ++ ['\n'] := hblank
    have hequals : skipBlanks ('=' :: ' ' :: (value ++ ['\n'])) = '=' :: ' ' :: (value ++ ['\n']) := rfl
    unfold assignment?
    rw [hkey]
    simp only [Option.bind_eq_bind, Option.bind_some, hequals, hvalue, hv]
  have hskip : skipBlanks (name.toList ++ ' ' :: '=' :: ' ' :: (value ++ ['\n'])) =
      name.toList ++ ' ' :: '=' :: ' ' :: (value ++ ['\n']) := by
    rw [hname]
    exact List.dropWhile_cons_of_neg (by simp [not_blank_of_bare hc])
  unfold line?
  rw [hskip]
  rw [hname] at hassignment ⊢
  have hopen : c ≠ '[' := ne_of_bare hc (by decide)
  have hcomment : ¬(c = '#' ∨ c = '\n' ∨ c = '\r') := by
    rintro (rfl | rfl | rfl) <;> simp [isBareKeyChar] at hc
  split
  · rename_i heq
    cases heq
  · rename_i heq
    exact absurd (List.cons.inj heq).1 hopen
  · rename_i heq
    exact absurd (List.cons.inj heq).1 hopen
  · rename_i heq
    rw [List.cons_append, List.cons.injEq] at heq
    obtain ⟨rfl, rfl⟩ := heq
    rw [if_neg hcomment]
    rw [List.cons_append] at hassignment
    rw [hassignment]
    rfl

private theorem linesFrom_step {a a' : Assembly} {statement : Statement} {fuel : Nat} (hne : cs ≠ [])
    (hline : line? cs = some (some statement, rest)) (hadd : a.add statement = some a') :
    linesFrom (fuel + 1) a cs = linesFrom fuel a' rest := by
  cases cs with
  | nil => exact absurd rfl hne
  | cons c cs =>
    rw [linesFrom, hline]
    · simp [hadd]
    · simp

/-- The text of a setting says this setting, if its value can be read. -/
theorem fields?_assignmentText (ht : IsBare title) (hn : IsBare name) {value : List Char} {v : Value}
    (hv : value? maxDepth (value ++ ['\n']) = some (v, ['\n']))
    (hblank : skipBlanks (value ++ ['\n']) = value ++ ['\n']) :
    fields? (String.ofList (assignmentText title name value)) = some [(title, .table [(name, v)])] := by
  have hnamed : Assembly.add {} (.header [] title) = some ⟨[(title, .table .named [])], [title]⟩ := rfl
  have hassigned : Assembly.add ⟨[(title, .table .named [])], [title]⟩ (.assignment [name] v) =
      some ⟨[(title, .table .named [(name, .value v)])], [title]⟩ := by
    simp [Assembly.add, Fields.within, Fields.assign, Fields.put]
  have hlines : linesFrom ((assignmentText title name value).length + 1) {} (assignmentText title name value) =
      some ⟨[(title, .table .named [(name, .value v)])], [title]⟩ := by
    have hne : name.toList ++ ' ' :: '=' :: ' ' :: (value ++ ['\n']) ≠ [] := by simp
    refine (linesFrom_step (List.cons_ne_nil _ _) (line?_header ht _) hnamed).trans ?_
    refine (linesFrom_step hne (line?_assignment hn hv hblank) hassigned).trans ?_
    rw [linesFrom]
  have hmark : dropByteOrderMark (String.ofList (assignmentText title name value)).toList =
      assignmentText title name value := by
    rw [String.toList_ofList]
    rfl
  unfold fields?
  rw [hmark]
  dsimp only
  rw [hlines]
  rfl

/-- The text of a setting is read as this setting, whatever its value. -/
theorem read_written (ht : IsBare title) (hn : IsBare name) {s : String} (hs : s ≠ "") :
    read (String.ofList (settingText title name s)) = .ok [(title, .table [(name, .scalar (.text s))])] := by
  have htext : settingText title name s = assignmentText title name (written s) := rfl
  rw [read_eq, htext, fields?_assignmentText ht hn (value?_written hs ['\n']) rfl]
  rfl

private theorem take_integer (n : Int) : Word.take ((toString n).toList ++ ['\n']) = ((toString n).toList, ['\n']) := by
  have hword : ∀ c ∈ (toString n).toList, Word.isWordChar c = true := by
    intro c hc
    rcases Decimal.minus_or_digit hc with rfl | hdigit
    · decide
    · simp [Word.isWordChar, Char.isAlphanum, hdigit]
  have htake : ((toString n).toList ++ ['\n']).takeWhile Word.isWordChar = (toString n).toList := by
    have hend : Word.isWordChar '\n' = false := by decide
    rw [List.takeWhile_append_of_pos hword, List.takeWhile_cons_of_neg (by simp [hend]), List.append_nil]
  have hdrop : ((toString n).toList ++ ['\n']).drop (toString n).toList.length = ['\n'] := List.drop_left
  unfold Word.take
  rw [htake]
  dsimp only
  rw [hdrop]
  rfl

private theorem value?_integer (n : Int) :
    value? maxDepth ((toString n).toList ++ ['\n']) = some (.ofInt n, ['\n']) := by
  obtain ⟨c, cs, hcs⟩ := Decimal.exists_cons n
  have hbounds : 45 ≤ c.toNat ∧ c.toNat ≤ 57 := Decimal.bounds_of_mem (n := n) (by rw [hcs]; exact List.mem_cons_self)
  have hne {d : Char} (hd : d.toNat < 45 ∨ 57 < d.toNat) : c ≠ d := by
    rintro rfl
    omega
  have htake := take_integer n
  rw [hcs, List.cons_append] at htake ⊢
  unfold value?
  split
  · rename_i heq
    exact absurd (List.cons.inj heq).1 (hne (by decide))
  · rename_i heq
    exact absurd (List.cons.inj heq).1 (hne (by decide))
  · rename_i heq
    rw [← (List.cons.inj heq).1, if_neg (not_or.2 ⟨hne (by decide), hne (by decide)⟩), htake]
    dsimp only
    rw [← hcs, Decimal.word_eq]
    rfl
  · rename_i heq
    cases heq

/-- A setting with an integer has this integer, whatever its size. -/
theorem fields?_integer (ht : IsBare title) (hn : IsBare name) (n : Int) :
    fields? (String.ofList (assignmentText title name (toString n).toList)) =
      some [(title, .table [(name, .ofInt n)])] := by
  refine fields?_assignmentText ht hn (value?_integer n) ?_
  obtain ⟨c, cs, hcs⟩ := Decimal.exists_cons n
  have hbounds : 45 ≤ c.toNat ∧ c.toNat ≤ 57 := Decimal.bounds_of_mem (n := n) (by rw [hcs]; exact List.mem_cons_self)
  have hne {d : Char} (hd : d.toNat < 45) : c ≠ d := by
    rintro rfl
    omega
  have hblank : isInlineBlank c = false := by
    simp [isInlineBlank, hne (d := ' ') (by decide), hne (d := '\t') (by decide)]
  rw [hcs]
  exact List.dropWhile_cons_of_neg (by simp [hblank])

end GradleBuild.Toml
