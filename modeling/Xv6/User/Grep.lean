import Mathlib.Computability.Language

/-!
# grep

A string is the list of the characters before its NUL.
-/

namespace Xv6.Grep

open Bool List

/-! ## The program -/

/-- `matchstar`, with `matchhere` on the pattern after the star as a parameter. -/
def matchstar (matchhere : List Char → Bool) (c : Char) : (text : List Char) → Bool
  | [] => matchhere []
  | t :: text => matchhere (t :: text) || (t == c || c == '.') && matchstar matchhere c text

def matchhere : (re text : List Char) → Bool
  | [], _ => true
  | c :: '*' :: re, text => matchstar (matchhere re) c text
  | ['$'], text => text.isEmpty
  | _ :: _, [] => false
  | c :: re, t :: text => (c == '.' || c == t) && matchhere re text

/-- The loop of `match` over the starts in the text. -/
def matchFrom (re : List Char) : (text : List Char) → Bool
  | [] => matchhere re []
  | t :: text => matchhere re (t :: text) || matchFrom re text

def «match» : (re text : List Char) → Bool
  | '^' :: re, text => matchhere re text
  | re, text => matchFrom re text

/-! ## The regular expressions -/

inductive Item where
  | one (c : Char)
  | star (c : Char)

/-- The items of a pattern after its `^`, and whether the end is anchored. -/
def items : List Char → List Item × Bool
  | [] => ([], false)
  | c :: '*' :: re => (.star c :: (items re).1, (items re).2)
  | ['$'] => ([], true)
  | c :: re => (.one c :: (items re).1, (items re).2)

/-- `.` stands for every character. -/
def Stands (c t : Char) : Prop := c = '.' ∨ c = t

def characters (c : Char) : Language Char := {w | ∃ t, Stands c t ∧ w = [t]}

open scoped Computability in
def Item.language : Item → Language Char
  | one c => characters c
  | star c => (characters c)∗

def language (items : List Item) : Language Char := (items.map Item.language).prod

/-- A start of the text is in the language of the items; all of the text if the end is
anchored. -/
def Starts (re text : List Char) : Prop :=
  ∃ middle after, text = middle ++ after ∧ middle ∈ language (items re).1 ∧
    ((items re).2 → after = [])

/-- Some part of the text is in the language of the pattern. -/
def Matches : (re text : List Char) → Prop
  | '^' :: re, text => Starts re text
  | re, text => ∃ before rest, text = before ++ rest ∧ Starts re rest

/-! ## Matching -/

theorem mem_star {c : Char} {w : List Char} : w ∈ (Item.star c).language ↔ ∀ t ∈ w, Stands c t := by
  rw [Item.language, Language.mem_kstar]
  constructor
  · rintro ⟨parts, rfl, fit⟩ t isIn
    obtain ⟨part, isPart, isIn⟩ := mem_flatten.mp isIn
    obtain ⟨t', stands, rfl⟩ := fit part isPart
    rwa [mem_singleton.mp isIn]
  · intro fit
    refine ⟨w.map ([·]), by rw [← flatMap_def, flatMap_singleton'], fun part isPart => ?_⟩
    obtain ⟨t, isIn, rfl⟩ := mem_map.mp isPart
    exact ⟨t, fit t isIn, rfl⟩

/-- A start for the items is a start for the first, and after it one for the others. -/
theorem starts_cons {item : Item}
    {re rest text : List Char} (eq : items re = (item :: (items rest).1, (items rest).2)) :
    Starts re text ↔ ∃ w after, text = w ++ after ∧ w ∈ item.language ∧ Starts rest after := by
  rw [Starts, eq]
  constructor
  · rintro ⟨_, after, rfl, ⟨w, first, others, isIn, rfl⟩, anchored⟩
    exact ⟨w, others ++ after, append_assoc .., first, others, after, rfl, isIn, anchored⟩
  · rintro ⟨w, _, rfl, first, others, after, rfl, isIn, anchored⟩
    exact ⟨w ++ others, after, (append_assoc ..).symm, ⟨w, first, others, isIn, rfl⟩, anchored⟩

theorem stands_iff {c t : Char} : Stands c t ↔ (c == '.' || c == t) := by simp [Stands]

theorem stands_iff_star {c t : Char} : Stands c t ↔ (t == c || c == '.') := by
  rw [stands_iff, Bool.or_comm, Bool.beq_comm (a := c)]

theorem matchstar_iff {here : List Char → Bool} {c : Char} {text : List Char} :
    matchstar here c text ↔ ∃ w rest, text = w ++ rest ∧ (∀ t ∈ w, Stands c t) ∧ here rest := by
  induction text with
  | nil => simp [matchstar]
  | cons t text ih =>
    rw [matchstar, or_eq_true, and_eq_true, ih, ← stands_iff_star]
    constructor
    · rintro (now | ⟨fit, w, rest, rfl, fits, later⟩)
      · exact ⟨[], t :: text, rfl, by simp, now⟩
      · exact ⟨t :: w, rest, rfl, forall_mem_cons.mpr ⟨fit, fits⟩, later⟩
    rintro ⟨w, rest, eq, fits, later⟩
    cases w with
    | nil => exact .inl (by rwa [eq])
    | cons t' w =>
      obtain ⟨rfl, rfl⟩ := List.cons.inj eq
      have ⟨fit, fits⟩ := forall_mem_cons.mp fits
      exact .inr ⟨fit, w, rest, rfl, fits, later⟩

theorem matchhere_iff (re text : List Char) : matchhere re text ↔ Starts re text := by
  fun_induction items re generalizing text with
  | case1 => exact ⟨fun _ => ⟨[], text, rfl, rfl, by simp [items]⟩, fun _ => by simp [matchhere]⟩
  | case2 c re ih =>
    rw [starts_cons (items.eq_2 c re), matchhere, matchstar_iff]
    simp only [mem_star, ih]
  | case3 =>
    rw [matchhere, List.isEmpty_iff]
    constructor
    · rintro rfl
      exact ⟨[], [], rfl, rfl, fun _ => rfl⟩
    · rintro ⟨_, after, rfl, rfl, anchored⟩
      exact anchored rfl
  | case4 c re unstarred last ih =>
    rw [starts_cons (items.eq_4 c re unstarred last)]
    cases text with
    | nil =>
      rw [matchhere.eq_4 _ _ unstarred last]
      constructor
      · rintro ⟨⟩
      · rintro ⟨_, after, eq, ⟨t, _, rfl⟩, _⟩
        cases eq
    | cons t text =>
      rw [matchhere.eq_5 _ _ _ _ unstarred last, and_eq_true, ← stands_iff, ih]
      constructor
      · rintro ⟨stands, starts⟩
        exact ⟨[t], text, rfl, ⟨t, stands, rfl⟩, starts⟩
      · rintro ⟨_, after, eq, ⟨t, stands, rfl⟩, starts⟩
        obtain ⟨rfl, rfl⟩ := List.cons.inj eq
        exact ⟨stands, starts⟩

theorem matchFrom_iff (re text : List Char) :
    matchFrom re text ↔ ∃ pre rest, text = pre ++ rest ∧ Starts re rest := by
  induction text with
  | nil => simp [matchFrom, matchhere_iff]
  | cons t text ih =>
    rw [matchFrom, or_eq_true, matchhere_iff, ih]
    constructor
    · rintro (now | ⟨pre, rest, rfl, later⟩)
      · exact ⟨[], t :: text, rfl, now⟩
      · exact ⟨t :: pre, rest, rfl, later⟩
    rintro ⟨pre, rest, eq, later⟩
    cases pre with
    | nil => exact .inl (by rwa [eq])
    | cons t' pre =>
      obtain ⟨rfl, rfl⟩ := List.cons.inj eq
      exact .inr ⟨pre, rest, rfl, later⟩

/-- `match` returns 1 on the texts that match. -/
theorem match_iff_matches (re text : List Char) : Grep.match re text ↔ Matches re text := by
  fun_cases Matches re text with
  | case1 re => exact matchhere_iff re text
  | case2 =>
    rw [Grep.match.eq_2 re text ‹_›]
    exact matchFrom_iff re text

/-! ## The lines of the input -/

/-- `strchr` for a newline goes on. -/
def passes (t : Char) : Bool := t ≠ '\n' ∧ t ≠ Char.ofNat 0

/-- The loop over the lines in `buf`: what it writes, and what it leaves. -/
def scan (pattern text : List Char) : List Char × List Char :=
  match _hit : text.dropWhile passes with
  | '\n' :: rest =>
    let line := text.takeWhile passes
    let (out, left) := scan pattern rest
    ((if Grep.match pattern line then line ++ ['\n'] else []) ++ out, left)
  | _ => ([], text)
termination_by text.length
decreasing_by
  have shorter := (dropWhile_suffix passes (l := text)).length_le
  rwa [_hit] at shorter

theorem length_drop_lt {input : List Char} {n : Nat} (more : input.take n ≠ []) :
    (input.drop n).length < input.length := by
  rw [Ne, take_eq_nil_iff] at more
  have pos := length_pos_iff.mpr fun none => more (.inr none)
  rw [length_drop]
  omega

/-- What `grep` writes with `held` in `buf` and `input` to come. A `read` takes up to
`piece input + 1` characters. -/
def grep (pattern : List Char) (piece : List Char → Nat) (held input : List Char) : List Char :=
  let n := min (1024 - held.length - 1) (piece input + 1)
  if _more : input.take n = [] then []
  else
    let (out, left) := scan pattern (held ++ input.take n)
    out ++ grep pattern piece left (input.drop n)
termination_by input.length
decreasing_by exact length_drop_lt _more

/-- The characters of some lines. -/
def text (lines : List (List Char)) : List Char := lines.flatMap (· ++ ['\n'])

/-- No newline and no NUL. -/
def Plain (line : List Char) : Prop := ∀ t ∈ line, passes t

variable {pattern line tail rest first second : List Char} {lines : List (List Char)}
  {piece : List Char → Nat}

theorem text_cons : text (line :: lines) ++ tail = line ++ '\n' :: (text lines ++ tail) := by
  simp [text]

theorem scan_text (plain : ∀ line ∈ lines, Plain line) (last : Plain tail) :
    scan pattern (text lines ++ tail) = (text (lines.filter (Grep.match pattern)), tail) := by
  induction lines with
  | nil =>
    have none : (tail ++ []).dropWhile passes = [] := dropWhile_append_of_pos last
    rw [append_nil] at none
    rw [scan]
    split
    · next hit => cases none.symm.trans hit
    · rfl
  | cons line lines ih =>
    rw [forall_mem_cons] at plain
    have found : (line ++ '\n' :: (text lines ++ tail)).dropWhile passes =
      '\n' :: (text lines ++ tail) := dropWhile_append_of_pos plain.1
    have isLine : (line ++ '\n' :: (text lines ++ tail)).takeWhile passes = line ++ [] :=
      takeWhile_append_of_pos plain.1
    rw [text_cons, scan]
    split
    · next hit =>
      cases found.symm.trans hit
      dsimp only
      rw [isLine, append_nil, ih plain.2, filter_cons]
      split <;> rfl
    · next other => exact absurd found (other _)

/-- A part of the input ends inside the first line or after it. -/
theorem line_split (eq : first ++ second = line ++ '\n' :: rest) : first ⊆ line ∧
    first.length ≤ line.length ∨ ∃ more, first = line ++ '\n' :: more ∧ more ++ second = rest := by
  rcases append_eq_append_iff.mp eq with ⟨more, rfl, _⟩ | ⟨more, rfl, after⟩
  · exact .inl ⟨subset_append_left _ _, by simp⟩
  cases more with
  | nil => exact .inl (by simp)
  | cons c more =>
    obtain ⟨rfl, rfl⟩ := cons.inj after
    exact .inr ⟨more, rfl, rfl⟩

/-- A part of the input is some lines and the start of another one. -/
theorem text_split (plain : ∀ line ∈ lines, Plain line) (last : Plain tail)
    (eq : first ++ second = text lines ++ tail) : ∃ done todo left, lines = done ++ todo ∧
    first = text done ++ left ∧ left ++ second = text todo ++ tail ∧ Plain left := by
  induction lines generalizing first with
  | nil =>
    obtain rfl : first ++ second = tail := eq
    exact ⟨[], [], first, rfl, rfl, rfl, fun t isIn => last t (by simp [isIn])⟩
  | cons line lines ih =>
    rw [forall_mem_cons] at plain
    rcases line_split (eq.trans text_cons) with ⟨inside, _⟩ | ⟨more, rfl, after⟩
    · exact ⟨[], line :: lines, first, rfl, rfl, eq, fun t isIn => plain.1 t (inside isIn)⟩
    · obtain ⟨done, todo, left, rfl, rfl, rest, isPlain⟩ := ih plain.2 after
      exact ⟨line :: done, todo, left, rfl, text_cons.symm, rest, isPlain⟩

theorem length_lt_text (isIn : line ∈ lines) : line.length < (text lines).length := by
  obtain ⟨before, after, rfl⟩ := append_of_mem isIn
  simp [text]
  omega

theorem grep_held {held input : List Char}
    (plain : ∀ line ∈ lines, Plain line) (last : Plain tail) (own : Plain held)
    (fits : held.length ≤ 1023) (eq : held ++ input = text lines ++ tail) :
    grep pattern piece held input =
      text ((lines.takeWhile (·.length < 1023)).filter (Grep.match pattern)) := by
  induction size : input.length using Nat.strongRecOn generalizing held input lines with
  | ind size ih =>
  rw [grep]
  split
  · next stop =>
    cases lines with
    | nil => rfl
    | cons line lines =>
      rcases line_split (eq.trans text_cons) with ⟨_, long⟩ | ⟨more, rfl, _⟩
      · have lengths := congrArg length (eq.trans text_cons)
        simp only [length_append, length_cons] at lengths
        -- The line has still to end, so the request was for nothing: `buf` is full of it.
        have full : 1023 ≤ line.length := by
          rcases take_eq_nil_iff.mp stop with none | rfl
          · omega
          · simp only [length_nil] at lengths
            omega
        rw [takeWhile_cons_of_neg (by simpa using full)]
        rfl
      · exact absurd (own '\n' (by simp)) (by decide)
  · next more =>
    rw [← take_append_drop (min (1024 - held.length - 1) (piece input + 1)) input,
      ← append_assoc] at eq
    obtain ⟨done, todo, left, rfl, isFirst, rest, isPlain⟩ := text_split plain last eq
    rw [forall_mem_append] at plain
    have total : (text done).length + left.length ≤ 1023 := by
      rw [← length_append, ← isFirst, length_append, length_take]
      omega
    have short : ∀ line ∈ done, decide (line.length < 1023) := by
      intro line isIn
      have := length_lt_text isIn
      simp
      omega
    rw [isFirst, scan_text plain.1 isPlain, takeWhile_append_of_pos short, filter_append]
    dsimp only
    rw [ih _ (size ▸ length_drop_lt more) plain.2 isPlain (by omega) rest rfl]
    simp [text]

/-- However the input comes, `grep` writes the lines that match if they all come before the
first that fills `buf`, and only then. -/
theorem grep_lines_iff (plain : ∀ line ∈ lines, Plain line)
    (last : Plain tail) : grep pattern piece [] (text lines ++ tail) =
        text (lines.filter (Grep.match pattern)) ↔
      ∀ line ∈ lines.dropWhile (·.length < 1023), ¬Grep.match pattern line := by
  rw [grep_held plain last (by simp [Plain]) (by simp) (nil_append _)]
  nth_rw 2 [← lines.takeWhile_append_dropWhile (p := (·.length < 1023))]
  rw [filter_append]
  simp [text]

theorem grep_lines_two : grep ['b'] (fun _ => 0) [] (text [['a'], ['b']] ++ []) = text [['b']] :=
  (grep_lines_iff (by simp [Plain, passes]) (by simp [Plain])).mpr (by simp)

theorem grep_loses_line : grep ['a'] (fun _ => 0) [] (text [replicate 1023 'a'] ++ []) ≠
    text ([replicate 1023 'a'].filter (Grep.match ['a'])) := by
  have plain : Plain (replicate 1023 'a') := fun _ isIn => eq_of_mem_replicate isIn ▸ rfl
  have last : Plain [] := (by simp [Plain])
  rw [grep_held (by simpa only [forall_mem_singleton]) last last (by simp) (nil_append _)]
  decide +kernel

end Xv6.Grep
