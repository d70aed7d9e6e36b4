import GradleBuild.Files.Remove
import Mathlib.Data.List.Basic

/-!
# The segments of paths

Paths are followed by their segments, so what is done to the bytes of a path is read here as something done to its
segments, up to idle ones at the end.

* `segments_join`: joining a name to a path adds a segment.
* `heads_of_mem_ancestors`: an ancestor has the first segments of the path.
* `text_of_mem_ancestors`: the ancestors of a text are texts.
-/

namespace GradleBuild

theorem pieces_append_sep {α : Type} {p : α → Bool} {c : α} (hc : p c = true) (l r : List α) :
    pieces p (l ++ c :: r) = pieces p l ++ pieces p r := by
  induction l with
  | nil => simp [pieces, hc]
  | cons x xs ih =>
    obtain ⟨w, ws, hw⟩ := List.exists_cons_of_ne_nil (pieces_ne_nil p xs)
    by_cases hx : p x = true
    · simp [pieces, hx, ih]
    · simp [pieces, hx, ih, hw]

theorem pieces_intercalate {α : Type} {p : α → Bool} {s : α} {w : List α} {ws : List (List α)} (hs : p s = true)
    (h : ∀ v ∈ w :: ws, ∀ c ∈ v, p c = false) : pieces p (List.intercalate [s] (w :: ws)) = w :: ws := by
  induction ws generalizing w with
  | nil => simpa [List.intercalate] using pieces_of_none (h w (by simp))
  | cons v ws ih =>
    have hw : List.intercalate [s] (w :: v :: ws) = w ++ s :: List.intercalate [s] (v :: ws) := by
      simp [List.intercalate, List.intersperse]
    rw [hw, pieces_append_cons (h w (by simp)) hs, ih fun u hu => h u (List.mem_cons_of_mem _ hu)]

/-- What is in a piece was in the list. -/
theorem mem_of_mem_pieces {α : Type} {p : α → Bool} {c : α} {l w : List α} (h : w ∈ pieces p l) (hc : c ∈ w) :
    c ∈ l := by
  induction l generalizing w with
  | nil =>
    rw [List.mem_singleton.1 h] at hc
    exact hc
  | cons x xs ih =>
    obtain ⟨v, vs, hv⟩ := List.exists_cons_of_ne_nil (pieces_ne_nil p xs)
    by_cases hx : p x = true
    · simp only [pieces, hx, if_true, List.mem_cons] at h
      rcases h with rfl | h
      · simp at hc
      · exact List.mem_cons_of_mem _ (ih h hc)
    · simp only [pieces, hx, hv, Bool.false_eq_true, if_false, List.mem_cons] at h
      rcases h with rfl | h
      · rcases List.mem_cons.1 hc with rfl | hc
        · exact List.mem_cons_self
        · exact List.mem_cons_of_mem _ (ih (by simp [hv]) hc)
      · exact List.mem_cons_of_mem _ (ih (by simp [hv, h]) hc)

namespace Path

variable {p a : Path} {name : Name} {s : Bytes}

theorem segments_ne_nil (p : Path) : p.segments ≠ [] := pieces_ne_nil _ _

theorem slash_not_mem (h : s ∈ p.segments) : ∀ c ∈ s, (c == slash) = false := not_sep_of_mem_pieces h

theorem mem_of_mem_segments {c : UInt8} (h : s ∈ p.segments) (hc : c ∈ s) : c ∈ p.bytes := mem_of_mem_pieces h hc

/-- An absolute path is one with an empty segment in front of others. -/
theorem isAbsolute_iff : p.isAbsolute = true ↔ ∃ rest, rest ≠ [] ∧ p.segments = [] :: rest := by
  obtain ⟨bs⟩ := p
  cases bs with
  | nil => simp [isAbsolute, segments, pieces]
  | cons b bs =>
    obtain ⟨w, ws, hw⟩ := List.exists_cons_of_ne_nil (pieces_ne_nil (· == slash) bs)
    by_cases hb : b = slash
    · simp [isAbsolute, segments, pieces, hb, hw]
    · simp [isAbsolute, segments, pieces, hb, hw]

/-- A name that a path can spell is one segment. -/
theorem segments_name (h : name.IsValid) : segments ⟨name⟩ = [name] := by
  apply pieces_of_none
  intro c hc
  have hne : c ≠ slash := fun he => h.2.2.2.1 (he ▸ hc)
  simpa using hne

theorem isAbsolute_name (h : name.IsValid) : isAbsolute ⟨name⟩ = false := by
  obtain ⟨hne, -, -, hslash, -, -⟩ := h
  obtain ⟨b, bs, rfl⟩ := List.exists_cons_of_ne_nil hne
  have hb : b ≠ slash := fun he => hslash (by simp [he])
  simpa [isAbsolute] using hb

/-- A name joined to a path is one segment more, behind what is not idle at the end of the path. -/
theorem segments_join (p : Path) (h : name.IsValid) : ∃ xs es, (∀ e ∈ es, isIdle e = true) ∧
    p.segments = xs ++ es ∧ (p.join ⟨name⟩).segments = xs ++ [name] := by
  obtain ⟨bs⟩ := p
  have hsep : ∀ l : Bytes, segments ⟨l ++ slash :: name⟩ = segments ⟨l⟩ ++ [name] := fun l => by
    have := segments_name h
    unfold segments at this ⊢
    rw [pieces_append_sep (by simp), this]
  unfold join
  rw [if_neg (by simp [isAbsolute_name h])]
  rcases List.eq_nil_or_concat' bs with rfl | ⟨l, b, rfl⟩
  · exact ⟨[], [[]], by simp [isIdle], rfl, by simpa using segments_name h⟩
  · by_cases hb : b = slash
    · subst hb
      refine ⟨segments ⟨l⟩, [[]], by simp [isIdle], ?_, ?_⟩
      · unfold segments
        rw [pieces_append_sep (by simp)]
        rfl
      · simpa using hsep l
    · exact ⟨segments ⟨l ++ [b]⟩, [], by simp, by simp, by simpa [hb] using hsep (l ++ [b])⟩

theorem isAbsolute_join_name (p : Path) (h : name.IsValid) : (p.join ⟨name⟩).isAbsolute = p.isAbsolute := by
  obtain ⟨bs⟩ := p
  have hn := isAbsolute_name h
  unfold join
  rw [if_neg (by simp [hn])]
  cases bs with
  | nil => simpa [isAbsolute] using hn
  | cons b bs => split <;> simp [isAbsolute]

/-! ### Ancestors -/

theorem segments_assemble {first : Bytes} {others : List Bytes}
    (h : ∀ s ∈ first :: others, ∀ c ∈ s, (c == slash) = false) :
    (assemble first others).segments = first :: others.reverse :=
  pieces_intercalate (by simp) fun s hs => h s (by simpa using hs)

/-- The path of one segment more has a slash and that segment more. -/
theorem bytes_assemble (first s : Bytes) (before : List Bytes) :
    (assemble first (s :: before)).bytes = (assemble first before).bytes ++ slash :: s := by
  have hconcat (w : Bytes) (ws : List Bytes) :
      List.intercalate [slash] (w :: (ws ++ [s])) = List.intercalate [slash] (w :: ws) ++ slash :: s := by
    induction ws generalizing w with
    | nil => simp [List.intercalate, List.intersperse]
    | cons v ws ih =>
      have hcons (us : List Bytes) :
          List.intercalate [slash] (w :: v :: us) = w ++ slash :: List.intercalate [slash] (v :: us) := by
        simp [List.intercalate, List.intersperse]
      rw [List.cons_append, hcons, hcons, ih]
      simp
  unfold assemble
  simpa using hconcat first before.reverse

theorem bytes_assemble_prefix (first : Bytes) (more others : List Bytes) :
    (assemble first others).bytes <+: (assemble first (more ++ others)).bytes := by
  induction more with
  | nil => exact List.prefix_refl _
  | cons s more ih =>
    rw [List.cons_append, bytes_assemble]
    exact ih.trans (List.prefix_append _ _)

theorem assemble_segments {first : Bytes} {rest : List Bytes} (h : p.segments = first :: rest) :
    assemble first rest.reverse = p := by
  have hbytes : List.intercalate [slash] p.segments = p.bytes := intercalate_pieces slash p.bytes
  unfold assemble
  rw [List.reverse_reverse, ← h, hbytes]

theorem heads_append_idle {first : Bytes} {absolute : Bool} {es others : List Bytes}
    (h : ∀ e ∈ es, isIdle e = true) : heads first absolute (es ++ others) = heads first absolute others := by
  induction es with
  | nil => rfl
  | cons e es ih =>
    rw [List.cons_append, heads, if_pos (h e (by simp))]
    exact ih fun e he => h e (List.mem_cons_of_mem _ he)

/-- Up to idle segments at its end, the path has the first of some segments. -/
def Heads (segments : List Bytes) (a : Path) : Prop :=
  ∃ xs es, xs <+: segments ∧ (∀ e ∈ es, isIdle e = true) ∧ a.segments = xs ++ es

private theorem mem_heads {first : Bytes} {others : List Bytes} {absolute : Bool}
    (h : ∀ s ∈ first :: others, ∀ c ∈ s, (c == slash) = false) (ha : absolute = true → first = [])
    (hm : a ∈ heads first absolute others) : Heads (first :: others.reverse) a := by
  induction others with
  | nil =>
    have hfirst : segments ⟨first⟩ = [first] := pieces_of_none (h first (by simp))
    have hempty : Heads [first] ⟨[]⟩ := ⟨[], [[]], List.nil_prefix, by simp [isIdle], rfl⟩
    unfold heads at hm
    split at hm
    · rename_i habs
      rw [List.mem_singleton] at hm
      subst hm
      rw [ha habs]
      exact ⟨[[]], [[]], List.prefix_refl _, by simp [isIdle], rfl⟩
    · split at hm
      · rw [List.mem_singleton] at hm
        exact hm ▸ hempty
      · rcases List.mem_cons.1 hm with rfl | hm
        · exact ⟨[first], [], List.prefix_refl _, by simp, by simpa using hfirst⟩
        · rw [List.mem_singleton] at hm
          exact hm ▸ hempty
  | cons s before ih =>
    have hbefore := ih fun u hu => h u (by
      rcases List.mem_cons.1 hu with rfl | hu
      · simp
      · simp [hu])
    have hlonger : a ∈ heads first absolute before → Heads (first :: (s :: before).reverse) a := by
      intro hm
      obtain ⟨xs, es, hxs, hes, hseg⟩ := hbefore hm
      refine ⟨xs, es, hxs.trans ⟨[s], by simp⟩, hes, hseg⟩
    unfold heads at hm
    split at hm
    · exact hlonger hm
    · rcases List.mem_cons.1 hm with rfl | hm
      · exact ⟨first :: (s :: before).reverse, [], List.prefix_refl _, by simp, by
          rw [segments_assemble h, List.append_nil]⟩
      · exact hlonger hm

/-- An ancestor of a path has its first segments. -/
theorem heads_of_mem_ancestors (h : a ∈ p.ancestors) : Heads p.segments a := by
  rcases List.mem_cons.1 h with rfl | h
  · exact ⟨a.segments, [], List.prefix_refl _, by simp, by simp⟩
  · have h := List.mem_of_mem_tail h
    obtain ⟨first, rest, hp⟩ := List.exists_cons_of_ne_nil p.segments_ne_nil
    have hslash : ∀ s ∈ first :: rest.reverse, ∀ c ∈ s, (c == slash) = false := fun s hs =>
      slash_not_mem (p := p) (by rw [hp]; simpa using hs)
    have habs : p.isAbsolute = true → first = [] := by
      intro ha
      obtain ⟨others, -, ho⟩ := isAbsolute_iff.1 ha
      rw [hp] at ho
      exact (List.cons.inj ho).1
    unfold allHeads at h
    rw [hp] at h ⊢
    simpa using mem_heads hslash habs h

private theorem isAbsolute_of_mem_heads {first : Bytes} {others : List Bytes} {absolute : Bool}
    (h : ∀ s ∈ first :: others, ∀ c ∈ s, (c == slash) = false) (ha : absolute = true → first = [])
    (hr : absolute = false → first = [] → others = []) (hm : a ∈ heads first absolute others) :
    a.isAbsolute = absolute := by
  induction others with
  | nil =>
    have hfirst : segments ⟨first⟩ = [first] := pieces_of_none (h first (by simp))
    cases absolute with
    | true =>
      simp only [heads, if_true, List.mem_singleton] at hm
      subst hm
      rfl
    | false =>
      have hrel : ∀ bs, segments ⟨bs⟩ = [bs] → isAbsolute ⟨bs⟩ = false := by
        intro bs hbs
        by_contra hne
        obtain ⟨rest, hrest, hseg⟩ := isAbsolute_iff.1 (by simpa using hne)
        rw [hbs] at hseg
        exact hrest (List.cons.inj hseg).2.symm
      have hmem : a = ⟨first⟩ ∨ a = ⟨[]⟩ := by
        simp only [heads, Bool.false_eq_true, if_false] at hm
        split at hm
        · exact Or.inr (List.mem_singleton.1 hm)
        · simpa using hm
      rcases hmem with rfl | rfl
      · exact hrel first hfirst
      · rfl
  | cons s before ih =>
    have hbefore : a ∈ heads first absolute before → a.isAbsolute = absolute := by
      refine ih (fun u hu => h u ?_) (fun hf he => absurd (hr hf he) (by simp))
      rcases List.mem_cons.1 hu with rfl | hu
      · simp
      · simp [hu]
    unfold heads at hm
    split at hm
    · exact hbefore hm
    · rcases List.mem_cons.1 hm with rfl | hm
      · have hseg := segments_assemble h
        cases absolute with
        | true => exact isAbsolute_iff.2 ⟨(s :: before).reverse, by simp, by rw [hseg, ha rfl]⟩
        | false =>
          by_contra hne
          obtain ⟨rest, -, hrest⟩ := isAbsolute_iff.1 (by simpa using hne)
          rw [hseg] at hrest
          exact absurd (hr rfl (List.cons.inj hrest).1) (by simp)
      · exact hbefore hm

/-- The heads of a path start where it starts. -/
theorem isAbsolute_of_mem_allHeads (h : a ∈ p.allHeads) : a.isAbsolute = p.isAbsolute := by
  obtain ⟨first, rest, hp⟩ := List.exists_cons_of_ne_nil p.segments_ne_nil
  unfold allHeads at h
  rw [hp] at h
  refine isAbsolute_of_mem_heads (fun s hs => slash_not_mem (p := p) (by rw [hp]; simpa using hs)) ?_ ?_ h
  · intro ha
    obtain ⟨others, -, ho⟩ := isAbsolute_iff.1 ha
    rw [hp] at ho
    exact (List.cons.inj ho).1
  · intro ha he
    by_contra hne
    have hrest : rest ≠ [] := by simpa using hne
    rw [isAbsolute_iff.2 ⟨rest, hrest, by rw [hp, he]⟩] at ha
    simp at ha

/-- The ancestors of a path start where it starts. -/
theorem isAbsolute_of_mem_ancestors (h : a ∈ p.ancestors) : a.isAbsolute = p.isAbsolute := by
  rcases List.mem_cons.1 h with rfl | h
  · rfl
  · exact isAbsolute_of_mem_allHeads (List.mem_of_mem_tail h)

theorem isAbsolute_trimmed (p : Path) : p.trimmed.isAbsolute = p.isAbsolute := by
  unfold trimmed
  cases hheads : p.allHeads with
  | nil => rfl
  | cons a rest =>
    have hmem : a ∈ p.allHeads := by simp [hheads]
    exact isAbsolute_of_mem_allHeads hmem

/-- A suffix leaves an absolute path absolute. -/
theorem isAbsolute_withSuffix? {suffix : String} (h : p.isAbsolute = true) (ha : p.withSuffix? suffix = some a) :
    a.isAbsolute = true := by
  obtain ⟨_, -, rfl⟩ := Option.map_eq_some_iff.1 ha
  rw [← isAbsolute_trimmed] at h
  unfold isAbsolute at h ⊢
  rw [List.head?_append, eq_of_beq h]
  simp

/-- The directories above a path are its heads without the last segment that stands for something. -/
theorem ancestors_tail {first : Bytes} {before es : List Bytes} (h : p.segments = first :: before ++ [s] ++ es)
    (hs : isIdle s = false) (hes : ∀ e ∈ es, isIdle e = true) :
    p.ancestors.tail = heads first p.isAbsolute before.reverse := by
  have hrow : (before ++ [s] ++ es).reverse = es.reverse ++ (s :: before.reverse) := by simp
  show p.allHeads.tail = _
  unfold allHeads
  rw [h]
  show (heads first p.isAbsolute (before ++ [s] ++ es).reverse).tail = _
  rw [hrow, heads_append_idle (by simpa using hes), heads, if_neg (by simp [hs])]
  rfl

/-! ### Texts -/

private theorem text_of_mem_pieces {cs : List Char} (h : s ∈ pieces (· == slash) (cs.flatMap String.utf8EncodeChar)) :
    ∃ text, s = encode text := by
  induction cs generalizing s with
  | nil => exact ⟨"", List.mem_singleton.1 h⟩
  | cons c cs ih =>
    rw [List.flatMap_cons] at h
    by_cases hc : ∀ b ∈ String.utf8EncodeChar c, (b == slash) = false
    · obtain ⟨w, ws, hw, hcut⟩ := pieces_append_of_none hc (cs.flatMap String.utf8EncodeChar)
      rw [hcut] at h
      rw [hw] at ih
      rcases List.mem_cons.1 h with rfl | h
      · obtain ⟨text, rfl⟩ := ih List.mem_cons_self
        exact ⟨String.ofList (c :: text.toList), by simp [encode]⟩
      · exact ih (List.mem_cons_of_mem _ h)
    · -- the character is the slash itself
      obtain ⟨b, hb, hslash⟩ : ∃ b ∈ String.utf8EncodeChar c, b = slash := by simpa using hc
      subst hslash
      obtain rfl : c = '/' := eq_of_mem_utf8EncodeChar hb (by decide)
      have hslash : String.utf8EncodeChar '/' = [slash] := by decide
      rw [hslash] at h
      have hcut : pieces (· == slash) ([slash] ++ cs.flatMap String.utf8EncodeChar) =
          [] :: pieces (· == slash) (cs.flatMap String.utf8EncodeChar) := by simp [pieces]
      rw [hcut] at h
      rcases List.mem_cons.1 h with rfl | h
      · exact ⟨"", rfl⟩
      · exact ih h

/-- A path is the text of its segments, if these are texts. -/
private theorem text_of_segments (h : ∀ s ∈ p.segments, ∃ text, s = encode text) : ∃ text, p = ofText text := by
  have hjoin : ∀ ws : List Bytes, (∀ s ∈ ws, ∃ text, s = encode text) →
      ∃ cs : List Char, List.intercalate [slash] ws = cs.flatMap String.utf8EncodeChar := by
    intro ws hws
    induction ws with
    | nil => exact ⟨[], rfl⟩
    | cons w ws ih =>
      obtain ⟨text, rfl⟩ := hws w List.mem_cons_self
      obtain ⟨cs, hcs⟩ := ih fun s hs => hws s (List.mem_cons_of_mem _ hs)
      cases ws with
      | nil => exact ⟨text.toList, by simp [List.intercalate, encode]⟩
      | cons v vs =>
        have hslash : String.utf8EncodeChar '/' = [slash] := by decide
        refine ⟨text.toList ++ '/' :: cs, ?_⟩
        rw [List.flatMap_append, List.flatMap_cons, hslash, ← hcs]
        simp [List.intercalate, List.intersperse, encode]
  obtain ⟨cs, hcs⟩ := hjoin p.segments h
  refine ⟨String.ofList cs, ?_⟩
  have hbytes : List.intercalate [slash] p.segments = p.bytes := intercalate_pieces slash p.bytes
  rw [hcs] at hbytes
  obtain ⟨bytes⟩ := p
  obtain rfl : cs.flatMap String.utf8EncodeChar = bytes := hbytes
  simp [ofText, encode]

/-- The ancestors of a text are texts. -/
theorem text_of_mem_ancestors {text : String} (h : a ∈ (ofText text).ancestors) : ∃ t, a = ofText t := by
  obtain ⟨xs, es, hxs, hes, hseg⟩ := heads_of_mem_ancestors h
  refine text_of_segments fun s hs => ?_
  rw [hseg] at hs
  rcases List.mem_append.1 hs with hs | hs
  · exact text_of_mem_pieces (hxs.subset hs)
  · have hidle : s = [] ∨ s = [dot] := by simpa [isIdle] using hes s hs
    rcases hidle with rfl | rfl
    · exact ⟨"", rfl⟩
    · exact ⟨".", by decide⟩

/-! ### The end of a path -/

private theorem dropWhile_append (l : List Bytes) : ∃ es, (∀ e ∈ es, isIdle e = true) ∧
    l = (l.reverse.dropWhile List.isEmpty).reverse ++ es := by
  refine ⟨(l.reverse.takeWhile List.isEmpty).reverse, fun e he => ?_, ?_⟩
  · have := List.all_takeWhile (p := List.isEmpty) (l := l.reverse)
    have := List.all_eq_true.1 this e (List.mem_reverse.1 he)
    simp [isIdle, this]
  · rw [← List.reverse_append, List.takeWhile_append_dropWhile, List.reverse_reverse]

/-- Only empty segments are trimmed off a path. -/
theorem segments_trimmed (p : Path) : ∃ es, (∀ e ∈ es, isIdle e = true) ∧
    p.segments = Files.trimmedSegments p ++ es := dropWhile_append p.segments

theorem trimmedSegments_concat {xs : List Bytes} (h : p.segments = xs ++ [s]) (hs : s ≠ []) :
    Files.trimmedSegments p = xs ++ [s] := by
  simp [Files.trimmedSegments, h, hs]

/-- The segments that are left do not end in an empty one. -/
theorem ne_nil_of_trimmed {xs : List Bytes} (h : Files.trimmedSegments p = xs ++ [s]) : s ≠ [] := by
  rintro rfl
  unfold Files.trimmedSegments at h
  have hdrop : p.segments.reverse.dropWhile List.isEmpty = [] :: xs.reverse := by
    rw [← List.reverse_reverse (List.dropWhile _ _), h]
    simp
  have hhead := List.head?_dropWhile_not List.isEmpty p.segments.reverse
  simp [hdrop] at hhead

theorem segments_splitLast {before : List Bytes} {last : Bytes} (h : Files.splitLast p = some (before, last)) :
    last ≠ [] ∧ ∃ es, (∀ e ∈ es, isIdle e = true) ∧ p.segments = before ++ last :: es := by
  obtain ⟨es, hes, hp⟩ := dropWhile_append p.segments
  unfold Files.splitLast at h
  split at h
  · simp at h
  · rename_i last' before' hd
    simp only [Option.some.injEq, Prod.mk.injEq] at h
    obtain ⟨rfl, rfl⟩ := h
    rw [hd] at hp
    refine ⟨fun he => ?_, es, hes, by simpa using hp⟩
    have := List.head?_dropWhile_not List.isEmpty p.segments.reverse
    rw [hd] at this
    simp [he] at this

/-- A path without parts but the root has nothing but idle segments behind it. -/
theorem idle_of_parts (h : p.parts.all (· = .root) = true) :
    p.bytes = [] ∨ p.isAbsolute = true ∧ ∀ s ∈ p.segments, isIdle s = true := by
  obtain ⟨first, rest, hp⟩ := List.exists_cons_of_ne_nil p.segments_ne_nil
  unfold parts at h
  rw [hp] at h
  simp only [List.all_append, Bool.and_eq_true, List.all_map, List.all_filter] at h
  have hpart : ∀ s, partOf s ≠ .root := fun s => by unfold partOf; split <;> simp
  have hrest : ∀ s ∈ rest, isIdle s = true := by
    intro s hs
    simpa [hpart] using List.all_eq_true.1 h.2 s hs
  by_cases ha : p.isAbsolute = true
  · right
    obtain ⟨others, -, ho⟩ := isAbsolute_iff.1 ha
    rw [hp] at ho ⊢
    refine ⟨ha, fun s hs => ?_⟩
    rcases List.mem_cons.1 hs with rfl | hs
    · simp [(List.cons.inj ho).1, isIdle]
    · exact hrest s hs
  · left
    have hstart := h.1
    rw [if_neg ha] at hstart
    split at hstart
    · rename_i hf
      -- with nothing in front of a first slash there is no slash at all
      have hr : rest = [] := by
        by_contra hne
        exact ha (isAbsolute_iff.2 ⟨rest, hne, by rw [hp, List.isEmpty_iff.1 hf]⟩)
      have := intercalate_pieces slash p.bytes
      change List.intercalate [slash] p.segments = p.bytes at this
      rw [hp, hr, List.isEmpty_iff.1 hf] at this
      simpa [List.intercalate] using this.symm
    · split at hstart <;> simp [hpart] at hstart

/-- A path with a segment that is not idle has other parts than the root. -/
theorem parts_of_not_idle (hs : s ∈ p.segments) (hi : isIdle s = false) : ¬ p.parts.all (· = .root) = true := by
  intro h
  rcases idle_of_parts h with hbytes | ⟨-, hidle⟩
  · have hempty : p.segments = [[]] := by simp [segments, hbytes, pieces]
    rw [hempty, List.mem_singleton] at hs
    simp [hs, isIdle] at hi
  · simp [hidle s hs] at hi

end Path

end GradleBuild
