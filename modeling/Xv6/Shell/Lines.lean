import Mathlib.Data.List.Basic
import Mathlib.Logic.Function.Basic
import Xv6.Shell.Grammar

/-! # Lines and their strings

The parser over the characters of a line does what it does over the tokens of the line, and
the strings of its tree end where their tokens end. -/

namespace Xv6.Shell

open List (append_nil map_cons mem_append mem_append_left mem_append_right mem_cons mem_cons_of_mem
  mem_flatMap mem_map)

/-! ## Parsers over two inputs -/

/-- Two lexers that give the same tokens from related states. -/
structure Lexer.Simulates {State State' : Type} (lexer : Lexer State)
    (lexer' : Lexer State') (Rel : State → State' → Prop) : Prop where
  gettoken : ∀ {s s'}, Rel s s' → ∃ tok t t', lexer.gettoken s = (tok, t) ∧
    lexer'.gettoken s' = (tok, t') ∧ Rel t t'
  peek : ∀ {s s'} (toks : List UInt8), (∀ c ∈ toks, c ∈ symbols) → Rel s s' →
    ∃ found t t', lexer.peek toks s = (found, t) ∧ lexer'.peek toks s' = (found, t') ∧
      Rel t t'

/-- The same tree in related states, or the same halt. -/
inductive Related {State State' : Type} (Rel : State → State' → Prop) :
    Except Halt (Cmd × State) → Except Halt (Cmd × State') → Prop
  | ok {s : State} {s' : State'} (cmd : Cmd) (rel : Rel s s') :
      Related Rel (.ok (cmd, s)) (.ok (cmd, s'))
  | error (halt : Halt) : Related Rel (.error halt) (.error halt)

section

variable {State State' : Type} {Rel : State → State' → Prop} {lexer : Lexer State}
  {lexer' : Lexer State'} {s : State} {s' : State'}

theorem Related.bind {out : Except Halt (Cmd × State)} {res' : Except Halt (Cmd × State')}
    {next : Cmd × State → Except Halt (Cmd × State)}
    {next' : Cmd × State' → Except Halt (Cmd × State')} (fst : Related Rel out res')
    (then_ : ∀ cmd s s', Rel s s' → Related Rel (next (cmd, s)) (next' (cmd, s'))) :
    Related Rel (out >>= next) (res' >>= next') := by
  cases fst with
  | ok cmd rel => exact then_ cmd _ _ rel
  | error halt => exact .error halt

section

variable (sim : lexer.Simulates lexer' Rel)
include sim

theorem Lexer.Simulates.passes (rel : Rel s s') :
    Rel (lexer.gettoken s).2 (lexer'.gettoken s').2 := by
  obtain ⟨tok, t, t', took, took', after⟩ := sim.gettoken rel
  rwa [took, took']

theorem parseredirs_related (fuel : Nat) (cmd : Cmd) (rel : Rel s s') :
    Related Rel (parseredirs lexer fuel cmd s) (parseredirs lexer' fuel cmd s') := by
  induction fuel generalizing cmd s s' with
  | zero => exact .error _
  | succ fuel ih =>
    obtain ⟨hit, t, t', peeked, peeked', rel⟩ := sim.peek (chars "<>") (among rfl) rel
    rw [parseredirs, parseredirs, peeked, peeked']
    cases hit with
    | false => exact .ok cmd rel
    | true =>
      obtain ⟨op, t, t', took, took', rel⟩ := sim.gettoken rel
      obtain ⟨file, t, t', took_file, took_file', rel⟩ := sim.gettoken rel
      simp only [took, took', took_file, took_file']
      cases file with
      | none => exact .error _
      | some token =>
        cases token with
        | word file => exact ih _ rel
        | _ => exact .error _

theorem backLoop_related (fuel : Nat) (cmd : Cmd) (rel : Rel s s') :
    Related Rel (backLoop lexer fuel cmd s) (backLoop lexer' fuel cmd s') := by
  induction fuel generalizing cmd s s' with
  | zero => exact .error _
  | succ fuel ih =>
    obtain ⟨hit, t, t', peeked, peeked', rel⟩ := sim.peek (chars "&") (among rfl) rel
    rw [backLoop, backLoop, peeked, peeked']
    cases hit with
    | false => exact .ok cmd rel
    | true => exact ih _ (sim.passes rel)

theorem argLoop_related (fuel argc : Nat) (ret : Cmd) (rel : Rel s s') :
    Related Rel (argLoop lexer fuel argc ret s) (argLoop lexer' fuel argc ret s') := by
  induction fuel generalizing argc ret s s' with
  | zero => exact .error _
  | succ fuel ih =>
    obtain ⟨hit, t, t', peeked, peeked', rel⟩ := sim.peek (chars "|)&;") (among rfl) rel
    rw [argLoop, argLoop, peeked, peeked']
    cases hit with
    | true => exact .ok ret rel
    | false =>
      obtain ⟨tok, t, t', took, took', rel⟩ := sim.gettoken rel
      dsimp only
      rw [took, took']
      cases tok with
      | none => exact .ok ret rel
      | some token =>
        cases token with
        | word arg =>
          dsimp only
          by_cases many : argc + 1 ≥ maxArgs
          · rw [if_pos many, if_pos many]
            exact .error _
          rw [if_neg many, if_neg many]
          exact (parseredirs_related sim fuel _ rel).bind fun ret _ _ rel =>
            ih _ ret rel
        | _ => exact .error _

theorem parser_related (fuel : Nat) :
    (∀ {s s'}, Rel s s' → Related Rel (parseline lexer fuel s) (parseline lexer' fuel s')) ∧
    (∀ {s s'}, Rel s s' → Related Rel (parsepipe lexer fuel s) (parsepipe lexer' fuel s')) ∧
    (∀ {s s'}, Rel s s' → Related Rel (parseexec lexer fuel s) (parseexec lexer' fuel s')) ∧
    (∀ {s s'}, Rel s s' → Related Rel (parseblock lexer fuel s) (parseblock lexer' fuel s')) := by
  induction fuel with
  | zero => exact ⟨fun _ => .error _, fun _ => .error _, fun _ => .error _, fun _ => .error _⟩
  | succ fuel ih =>
    obtain ⟨line, pipe, exec, block⟩ := ih
    refine ⟨?_, ?_, ?_, ?_⟩
    · intro s s' rel
      rw [parseline, parseline]
      refine (pipe rel).bind fun cmd _ _ rel => ?_
      refine (backLoop_related sim fuel cmd rel).bind fun cmd _ _ rel => ?_
      obtain ⟨hit, t, t', peeked, peeked', rel⟩ := sim.peek (chars ";") (among rfl) rel
      dsimp only
      rw [peeked, peeked']
      cases hit with
      | false => exact .ok cmd rel
      | true => exact (line (sim.passes rel)).bind fun right _ _ rel => .ok _ rel
    · intro s s' rel
      rw [parsepipe, parsepipe]
      refine (exec rel).bind fun cmd _ _ rel => ?_
      obtain ⟨hit, t, t', peeked, peeked', rel⟩ := sim.peek (chars "|") (among rfl) rel
      dsimp only
      rw [peeked, peeked']
      cases hit with
      | false => exact .ok cmd rel
      | true => exact (pipe (sim.passes rel)).bind fun right _ _ rel => .ok _ rel
    · intro s s' rel
      obtain ⟨hit, t, t', peeked, peeked', rel⟩ := sim.peek (chars "(") (among rfl) rel
      rw [parseexec, parseexec, peeked, peeked']
      cases hit with
      | true => exact block rel
      | false =>
        exact (parseredirs_related sim fuel _ rel).bind fun ret _ _ rel =>
          argLoop_related sim fuel 0 ret rel
    · intro s s' rel
      obtain ⟨hit, t, t', peeked, peeked', rel⟩ := sim.peek (chars "(") (among rfl) rel
      rw [parseblock, parseblock, peeked, peeked']
      cases hit with
      | false => exact .error _
      | true =>
        refine (line (sim.passes rel)).bind fun cmd _ _ rel => ?_
        obtain ⟨closed, t, t', peeked, peeked', rel⟩ := sim.peek (chars ")") (among rfl) rel
        dsimp only
        rw [peeked, peeked']
        cases closed with
        | false => exact .error _
        | true => exact parseredirs_related sim fuel cmd (sim.passes rel)

end

end

/-! ## Scanning -/

section

variable {test : UInt8 → Bool} {text : List UInt8} {left s : Nat}

theorem le_scan : s ≤ scan test text left s := by
  induction left generalizing s with
  | zero => exact le_rfl
  | succ left ih =>
    rw [scan]
    split
    · exact (Nat.le_succ s).trans ih
    · exact le_rfl

theorem scan_le : scan test text left s ≤ s + left := by
  induction left generalizing s with
  | zero => exact le_rfl
  | succ left ih =>
    rw [scan]
    split
    · exact ih.trans (by omega)
    · exact Nat.le_add_right _ _

theorem scan_passes {i : Nat} (from_s : s ≤ i) (old : i < scan test text left s) :
    test (charAt text i) = true := by
  induction left generalizing s with
  | zero => exact absurd old (not_lt.mpr from_s)
  | succ left ih =>
    rw [scan] at old
    split at old
    · rename_i passed
      rcases from_s.eq_or_lt with rfl | later
      · exact passed
      · exact ih later old
    · exact absurd old (not_lt.mpr from_s)

theorem scan_stops :
    scan test text left s = s + left ∨ test (charAt text (scan test text left s)) = false := by
  induction left generalizing s with
  | zero => exact .inl rfl
  | succ left ih =>
    rw [scan]
    split
    · rcases ih with at_end | stopped
      · left
        rw [at_end]
        omega
      · exact .inr stopped
    · rename_i o
      exact .inr (Bool.eq_false_iff.mpr o)

theorem scan_of_false (o : test (charAt text s) = false) : scan test text left s = s := by
  cases left with
  | zero => rfl
  | succ left => rw [scan, o, if_neg Bool.false_ne_true]

theorem lt_scan (room : 0 < left) (passes : test (charAt text s) = true) :
    s < scan test text left s := by
  obtain ⟨left, rfl⟩ := Nat.exists_eq_succ_of_ne_zero room.ne'
  rw [scan, if_pos passes]
  exact le_scan

theorem charAt_of_le (past : text.length ≤ s) : charAt text s = 0 := by
  rw [charAt, List.getD_eq_default _ _ past]

theorem lt_of_charAt (isIn : charAt text s ≠ 0) : s < text.length := by
  by_contra past
  exact isIn (charAt_of_le (Nat.le_of_not_lt past))

theorem charAt_mem (isIn : s < text.length) : charAt text s ∈ text := by
  rw [charAt, List.getD_eq_getElem _ _ isIn]
  exact List.getElem_mem isIn

theorem le_skip : s ≤ skip text s := le_scan

theorem skip_le (isIn : s ≤ text.length) : skip text s ≤ text.length := scan_le.trans (by omega)

theorem skip_stops : charAt text (skip text s) ∉ whitespace := by
  have zero_stops : (0 : UInt8) ∉ whitespace := by decide
  have stops : skip text s = s + (text.length - s) ∨ _ := scan_stops
  rcases stops with at_end | stopped
  · rwa [at_end, charAt_of_le (by omega)]
  · exact of_decide_eq_false stopped

theorem skip_skip : skip text (skip text s) = skip text s :=
  scan_of_false (decide_eq_false skip_stops)

end

/-! ## Tokens -/

/-- A word of the line: as many characters as there are that are neither whitespace nor
symbols. -/
structure WordAt (text : List UInt8) (span : Span) : Prop where
  nonempty : span.q < span.eq
  inside : span.eq ≤ text.length
  plain : ∀ i, span.q ≤ i → i < span.eq →
    charAt text i ∉ whitespace ∧ charAt text i ∉ symbols
  ends : span.eq = text.length ∨ charAt text span.eq ∈ whitespace ∨
    charAt text span.eq ∈ symbols

/-- What is known of the token at `s` and its end. -/
inductive Recognised (text : List UInt8) (s : Nat) : Option Token × Nat → Prop
  | atEnd (at_end : charAt text s = 0) : Recognised text s (none, s)
  | inside {token : Token} {eq : Nat} (after : s < eq) (eq_le : eq ≤ text.length)
      (starts : ∀ toks, (∀ c ∈ toks, c ∈ symbols) →
        token.startsIn toks = decide (charAt text s ∈ toks))
      (word : ∀ span, token = .word span → WordAt text span)
      (not_end : charAt text s ≠ 0) : Recognised text s (some token, eq)

section

variable {text : List UInt8} {s : Nat} {token : Token}

theorem Recognised.operator {c : UInt8} (at_s : charAt text s = c) (symbol : c ∈ symbols) (starts :
    ∀ toks, token.startsIn toks = decide (c ∈ toks)) : Recognised text s (some token, s + 1) := by
  subst at_s
  have zero_o : (0 : UInt8) ∉ symbols := by decide
  have not_end : charAt text s ≠ 0 := fun at_end => zero_o (at_end ▸ symbol)
  refine .inside (Nat.lt_succ_self s) (lt_of_charAt not_end) (fun toks _ => starts toks) ?_ not_end
  rintro span rfl
  have as_word := starts symbols
  rw [decide_eq_true symbol] at as_word
  cases as_word

theorem wordEnd_wordAt (not_white : charAt text s ∉ whitespace)
    (not_symbol : charAt text s ∉ symbols) (not_end : charAt text s ≠ 0) :
    WordAt text ⟨s, wordEnd text s⟩ where
  nonempty := by
    have isIn := lt_of_charAt not_end
    exact lt_scan (by omega) (decide_eq_true ⟨not_white, not_symbol⟩)
  inside := by
    have isIn := lt_of_charAt not_end
    exact scan_le.trans (by omega)
  plain i from_s old := of_decide_eq_true (scan_passes from_s old)
  ends := by
    have isIn := lt_of_charAt not_end
    have stops : wordEnd text s = s + (text.length - s) ∨ _ := scan_stops
    rcases stops with at_end | stopped
    · left
      change wordEnd text s = _
      omega
    right
    by_contra neither
    exact of_decide_eq_false stopped (not_or.mp neither)

theorem tokenAt_recognised (not_white : charAt text s ∉ whitespace) :
    Recognised text s (tokenAt text s) := by
  unfold tokenAt
  dsimp only
  by_cases at_end : charAt text s = 0
  · rw [if_pos at_end]
    exact .atEnd at_end
  rw [if_neg at_end]
  by_cases bar : charAt text s = '|'.toUInt8
  · rw [if_pos bar]
    exact .operator bar (by decide) fun _ => rfl
  rw [if_neg bar]
  by_cases lparen : charAt text s = '('.toUInt8
  · rw [if_pos lparen]
    exact .operator lparen (by decide) fun _ => rfl
  rw [if_neg lparen]
  by_cases rparen : charAt text s = ')'.toUInt8
  · rw [if_pos rparen]
    exact .operator rparen (by decide) fun _ => rfl
  rw [if_neg rparen]
  by_cases semi : charAt text s = ';'.toUInt8
  · rw [if_pos semi]
    exact .operator semi (by decide) fun _ => rfl
  rw [if_neg semi]
  by_cases amp : charAt text s = '&'.toUInt8
  · rw [if_pos amp]
    exact .operator amp (by decide) fun _ => rfl
  rw [if_neg amp]
  by_cases less : charAt text s = '<'.toUInt8
  · rw [if_pos less]
    exact .operator less (by decide) fun _ => rfl
  rw [if_neg less]
  by_cases greater : charAt text s = '>'.toUInt8
  · rw [if_pos greater]
    by_cases twice : charAt text (s + 1) = '>'.toUInt8
    · rw [if_pos twice]
      have isIn : s + 1 < text.length := lt_of_charAt (by rw [twice]; decide)
      refine .inside (by omega) isIn (fun toks _ => ?_) (fun _ word => ?_) at_end
      · rw [greater]
        rfl
      · cases word
    · rw [if_neg twice]
      exact .operator greater (by decide) fun _ => rfl
  rw [if_neg greater]
  have not_symbol : charAt text s ∉ symbols := by
    have all : symbols = ['<'.toUInt8, '|'.toUInt8, '>'.toUInt8, '&'.toUInt8, ';'.toUInt8,
      '('.toUInt8, ')'.toUInt8] := by decide
    rw [all]
    simp only [mem_cons, List.not_mem_nil, or_false, not_or]
    exact ⟨less, bar, greater, amp, semi, lparen, rparen⟩
  have word := wordEnd_wordAt not_white not_symbol at_end
  refine .inside word.nonempty word.inside ?_ ?_ at_end
  · intro toks known
    exact (decide_eq_false fun hit => not_symbol (known _ hit)).symm
  · rintro span same
    cases same
    exact word

/-- The tokens that `gettoken` finds one after the other. -/
def tokensFrom (text : List UInt8) : (fuel : Nat) → (s : Nat) → List Token
  | 0, _ => []
  | fuel + 1, s =>
    match gettoken text s with
    | (none, _) => []
    | (some token, s) => token :: tokensFrom text fuel s

/-- Each token takes a character at least. -/
def tokensAt (text : List UInt8) (s : Nat) : List Token :=
  tokensFrom text (text.length - s) s

def tokens (text : List UInt8) : List Token := tokensAt text 0

/-- What `gettoken` returns from `s` when there is a token. -/
structure Gets (text : List UInt8) (s : Nat) (token : Token) (after : Nat) : Prop where
  gets : gettoken text s = (some token, after)
  lt_after : skip text s < after
  after_le : after ≤ text.length
  starts : ∀ toks, (∀ c ∈ toks, c ∈ symbols) →
    token.startsIn toks = decide (charAt text (skip text s) ∈ toks)
  word : ∀ span, token = .word span → WordAt text span
  not_end : charAt text (skip text s) ≠ 0

theorem gettoken_cases (text : List UInt8) (s : Nat) : (charAt text (skip text s) = 0 ∧
    gettoken text s = (none, skip text s)) ∨ ∃ token after, Gets text s token after := by
  have recognised : Recognised text (skip text s) (tokenAt text (skip text s)) :=
    tokenAt_recognised skip_stops
  have gets : gettoken text s =
    ((tokenAt text (skip text s)).1, skip text (tokenAt text (skip text s)).2) := rfl
  generalize tokenAt text (skip text s) = out at recognised gets
  cases recognised with
  | atEnd at_end =>
    rw [skip_skip] at gets
    exact .inl ⟨at_end, gets⟩
  | inside lt_eq eq_le starts word not_end =>
    exact .inr ⟨_, _, gets, lt_eq.trans_le le_skip, skip_le eq_le, starts, word, not_end⟩

theorem tokensFrom_eq {fuel fuel' : Nat} (enough : text.length - s ≤ fuel)
    (enough' : text.length - s ≤ fuel') : tokensFrom text fuel s = tokensFrom text fuel' s := by
  induction fuel generalizing fuel' s with
  | zero =>
    rcases gettoken_cases text s with ⟨_, none⟩ | ⟨token, after, got⟩
    · cases fuel' <;> simp only [tokensFrom, none]
    have lt_after := le_skip.trans_lt got.lt_after
    have after_le := got.after_le
    omega
  | succ fuel ih =>
    rcases gettoken_cases text s with ⟨_, none⟩ | ⟨token, after, got⟩
    · cases fuel' <;> simp only [tokensFrom, none]
    have lt_after := le_skip.trans_lt got.lt_after
    have after_le := got.after_le
    obtain ⟨fuel', rfl⟩ := Nat.exists_eq_succ_of_ne_zero (show fuel' ≠ 0 by omega)
    simp only [tokensFrom, got.gets]
    have same : tokensFrom text fuel after = tokensFrom text fuel' after := ih (by omega) (by omega)
    rw [same]

theorem tokensAt_of_none (none : gettoken text s = (none, skip text s)) : tokensAt text s = [] := by
  rw [tokensAt]
  cases text.length - s with
  | zero => rfl
  | succ fuel => rw [tokensFrom, none]

theorem tokensAt_of_gets {after : Nat} (got : Gets text s token after) :
    tokensAt text s = token :: tokensAt text after := by
  have lt_after := le_skip.trans_lt got.lt_after
  have after_le := got.after_le
  obtain ⟨fuel, enough⟩ := Nat.exists_eq_succ_of_ne_zero (show text.length - s ≠ 0 by omega)
  rw [tokensAt, enough, tokensFrom, got.gets]
  dsimp only
  have same : tokensFrom text fuel after = tokensAt text after := tokensFrom_eq (by omega) le_rfl
  rw [same]

theorem Gets.skip {s' : Nat} (got : Gets text s token s') : Gets text (skip text s) token s' where
  gets := by rw [← got.gets, gettoken, gettoken, skip_skip]
  lt_after := by
    rw [skip_skip]
    exact got.lt_after
  after_le := got.after_le
  starts := by
    rw [skip_skip]
    exact got.starts
  word := got.word
  not_end := by
    rw [skip_skip]
    exact got.not_end

theorem tokensAt_skip : tokensAt text (skip text s) = tokensAt text s := by
  rcases gettoken_cases text s with ⟨_, none⟩ | ⟨token, after, got⟩
  · rw [tokensAt_of_none none, tokensAt_of_none]
    rw [skip_skip, ← none, gettoken, gettoken, skip_skip]
  · rw [tokensAt_of_gets got, tokensAt_of_gets got.skip]

theorem tokensAt_eq_nil_iff (nul_free : 0 ∉ text) (isIn : s ≤ text.length) :
    tokensAt text s = [] ↔ skip text s = text.length := by
  have skip_inside := skip_le isIn
  rcases gettoken_cases text s with ⟨at_end, none⟩ | ⟨token, after, got⟩
  · refine iff_of_true (tokensAt_of_none none) (skip_inside.eq_or_lt.resolve_right ?_)
    exact fun old => nul_free (at_end ▸ charAt_mem old)
  refine iff_of_false ?_ (lt_of_charAt got.not_end).ne
  rw [tokensAt_of_gets got]
  exact List.cons_ne_nil _ _

theorem length_tokensFrom (fuel : Nat) : (tokensFrom text fuel s).length ≤ fuel := by
  induction fuel generalizing s with
  | zero => exact le_rfl
  | succ fuel ih =>
    rw [tokensFrom]
    split
    · exact Nat.zero_le _
    · exact Nat.succ_le_succ ih

variable {span : Span}

theorem word_mem_tokensFrom {fuel : Nat}
    (found : .word span ∈ tokensFrom text fuel s) : WordAt text span := by
  induction fuel generalizing s with
  | zero => cases found
  | succ fuel ih =>
    rw [tokensFrom] at found
    rcases gettoken_cases text s with ⟨_, none⟩ | ⟨token, after, got⟩
    · rw [none] at found
      cases found
    rw [got.gets] at found
    rcases mem_cons.mp found with same | later
    · exact got.word span same.symm
    · exact ih later

/-- The line and its tokens are the same input to the parser. -/
def AtTokens (text : List UInt8) (s : Nat) (ts : List Token) : Prop :=
  s ≤ text.length ∧ tokensAt text s = ts

theorem lexer_simulates (text : List UInt8) :
    (lexer text).Simulates tokenLexer (AtTokens text) where
  gettoken := by
    rintro s _ ⟨isIn, rfl⟩
    rcases gettoken_cases text s with ⟨at_end, none⟩ | ⟨token, after, got⟩
    · refine ⟨_, _, _, none, ?_, skip_le isIn, tokensAt_skip⟩
      rw [tokensAt_of_none none]
      rfl
    refine ⟨_, _, _, got.gets, ?_, got.after_le, rfl⟩
    rw [tokensAt_of_gets got]
    rfl
  peek := by
    rintro s _ toks known ⟨isIn, rfl⟩
    refine ⟨_, _, _, rfl, ?_, skip_le isIn, tokensAt_skip⟩
    rw [peek_eq]
    rcases gettoken_cases text s with ⟨at_end, none⟩ | ⟨token, after, got⟩
    · rw [tokensAt_of_none none, at_end]
      simp only [ne_eq, not_true, false_and, decide_false]
      rfl
    rw [tokensAt_of_gets got]
    simp only [ne_eq, got.not_end, not_false_eq_true, true_and]
    rw [← got.starts toks known]
    rfl

end

/-! ## Strings -/

namespace Cmd

/-- The arguments and files of a command. -/
def strings : Cmd → List Span
  | exec argv => argv
  | redir cmd file _ _ => file :: cmd.strings
  | pipe left right => left.strings ++ right.strings
  | list left right => left.strings ++ right.strings
  | back cmd => cmd.strings

theorem strings_redircmd (cmd : Cmd) (op : RedirOp) (file : Span) :
    (redircmd cmd (some op.token) file).strings = file :: cmd.strings := by
  cases op <;> rfl

variable {cmd : Cmd}

theorem mem_strings_redirected {redirs : List Redirection}
    (hit : span ∈ (cmd.redirected redirs).strings) :
    span ∈ cmd.strings ∨ ∃ redir ∈ redirs, span = redir.file := by
  induction redirs generalizing cmd with
  | nil => exact .inl hit
  | cons redir redirs ih =>
    rcases ih hit with isIn | ⟨later, among, same⟩
    · dsimp only at isIn
      rw [strings_redircmd, mem_cons] at isIn
      exact isIn.elim (fun same => .inr ⟨redir, List.mem_cons_self, same⟩) .inl
    · exact .inr ⟨later, mem_cons_of_mem _ among, same⟩

theorem strings_backs (n : Nat) (cmd : Cmd) : (back^[n] cmd).strings = cmd.strings := by
  induction n generalizing cmd with
  | zero => rfl
  | succ n ih => exact ih (back cmd)

end Cmd

theorem mem_redirTokens {redirs : List Redirection} {redir : Redirection}
    (among : redir ∈ redirs) : .word redir.file ∈ redirTokens redirs :=
  mem_flatMap.mpr ⟨redir, among, mem_cons_of_mem _ (List.mem_singleton_self _)⟩

theorem Derives.strings {nonterminal : Nonterminal} {ts : List Token}
    (derived : Derives nonterminal ts cmd) (hit : span ∈ cmd.strings) : .word span ∈ ts := by
  induction derived with
  | exec fst args few =>
    rcases Cmd.mem_strings_redirected hit with argument | ⟨redir, among, rfl⟩
    · obtain ⟨arg, among, rfl⟩ := mem_map.mp argument
      exact mem_append_right _ (mem_flatMap.mpr ⟨arg, among, List.mem_cons_self⟩)
    rcases mem_append.mp among with early | late
    · exact mem_append_left _ (mem_redirTokens early)
    obtain ⟨arg, among, own⟩ := mem_flatMap.mp late
    exact mem_append_right _ (mem_flatMap.mpr ⟨arg, among, mem_cons_of_mem _ (mem_redirTokens own)⟩)
  | block redirs line ih =>
    apply mem_cons_of_mem
    rcases Cmd.mem_strings_redirected hit with isIn | ⟨redir, among, rfl⟩
    · exact mem_append_left _ (ih isIn)
    · exact mem_append_right _ (mem_cons_of_mem _ (mem_redirTokens among))
  | single left ih => exact ih hit
  | pipe left right left_ih right_ih =>
    rcases mem_append.mp hit with in_left | in_right
    · exact mem_append_left _ (left_ih in_left)
    · exact mem_append_right _ (mem_cons_of_mem _ (right_ih in_right))
  | last n left ih =>
    rw [Cmd.strings_backs] at hit
    exact mem_append_left _ (ih hit)
  | more n left right left_ih right_ih =>
    rcases mem_append.mp hit with in_left | in_right
    · rw [Cmd.strings_backs] at in_left
      exact mem_append_left _ (left_ih in_left)
    · exact mem_append_right _ (mem_append_right _ (mem_cons_of_mem _ (right_ih in_right)))

/-- The string at `q` in memory. -/
structure Spells (buf : Nat → UInt8) (q : Nat) (string : List UInt8) : Prop where
  chars : ∀ i c, string[i]? = some c → buf (q + i) = c
  nul_free : 0 ∉ string
  ends : buf (q + string.length) = 0

theorem nulterminate_apply (cmd : Cmd) (buf : Nat → UInt8) (i : Nat) :
    nulterminate cmd buf i = if i ∈ cmd.strings.map Span.eq then 0 else buf i := by
  induction cmd generalizing buf with
  | exec argv =>
    rw [nulterminate, Cmd.strings]
    induction argv generalizing buf with
    | nil => rfl
    | cons arg argv ih =>
      rw [List.foldl_cons, ih, map_cons]
      by_cases here : i = arg.eq
      · simp [here]
      · simp [here]
  | redir cmd file mode fd ih =>
    rw [nulterminate, Cmd.strings, map_cons]
    by_cases here : i = file.eq
    · simp [here]
    · simp [here, ih]
  | pipe left right left_ih right_ih | list left right left_ih right_ih =>
    rw [nulterminate, right_ih, left_ih, Cmd.strings, List.map_append]
    simp only [mem_append]
    grind
  | back cmd ih =>
    rw [nulterminate, ih, Cmd.strings]

/-- The text of a token. -/
def Span.text (text : List UInt8) (span : Span) : List UInt8 :=
  (text.drop span.q).take (span.eq - span.q)

theorem WordAt.spells {text : List UInt8} (nul_free : 0 ∉ text)
    (word : WordAt text span) (among : span ∈ cmd.strings)
    (words : ∀ o ∈ cmd.strings, WordAt text o) :
    Spells (nulterminate cmd (buffer text)) span.q (span.text text) where
  chars i c at_i := by
    obtain ⟨i_lt, at_i⟩ := List.getElem?_eq_some_iff.mp at_i
    have old : span.q + i < span.eq := by
      rw [Span.text, List.length_take] at i_lt
      omega
    have untouched : span.q + i ∉ cmd.strings.map Span.eq := by
      intro ended
      obtain ⟨o, among', same⟩ := mem_map.mp ended
      have isIn := word.inside
      have plain := word.plain _ (Nat.le_add_right span.q i) old
      rw [← same] at plain old
      rcases (words o among').ends with at_end | white | symbol
      · omega
      · exact plain.1 white
      · exact plain.2 symbol
    rw [nulterminate_apply, if_neg untouched, buffer, charAt,
      List.getD_eq_getElem _ _ (old.trans_le word.inside), ← at_i]
    simp only [Span.text, List.getElem_take, List.getElem_drop]
  nul_free isIn := nul_free (List.mem_of_mem_drop (List.mem_of_mem_take isIn))
  ends := by
    have length : span.q + (span.text text).length = span.eq := by
      have nonempty := word.nonempty
      have isIn := word.inside
      rw [Span.text, List.length_take, List.length_drop]
      omega
    rw [length, nulterminate_apply, if_pos (List.mem_map_of_mem among)]

section

variable {text : List UInt8} {fuel : Nat}

theorem length_tokens (text : List UInt8) : (tokens text).length ≤ text.length :=
  length_tokensFrom _

theorem parseline_related (text : List UInt8) (fuel : Nat) : Related
    (AtTokens text) (parseline (lexer text) fuel 0) (parseline tokenLexer fuel (tokens text)) :=
  (parser_related (lexer_simulates text) fuel).1 ⟨Nat.zero_le _, rfl⟩

theorem parsecmd_ok {s : Nat} (parsed : parseline (lexer text) fuel 0 = .ok (cmd, s))
    (whole : skip text s = text.length) :
    parsecmd fuel text = .ok (cmd, nulterminate cmd (buffer text)) := by
  rw [parsecmd, parsed]
  exact if_neg (not_not_intro whole)

theorem parsecmd_leftovers {s : Nat} (parsed : parseline (lexer text) fuel 0 = .ok (cmd, s))
    (more : skip text s ≠ text.length) : parsecmd fuel text = .error (.panic .leftovers) := by
  rw [parsecmd, parsed]
  exact if_pos more

theorem parsecmd_of_derives (nul_free : 0 ∉ text) (enough : 4 * text.length + 4 ≤ fuel)
    (derived : Derives .line (tokens text) cmd) :
    parsecmd fuel text = .ok (cmd, nulterminate cmd (buffer text)) := by
  have few := length_tokens text
  have complete : parseline tokenLexer fuel (tokens text ++ []) = .ok (cmd, []) := by
    refine parser_complete derived (.inl rfl) ?_
    rw [append_nil]
    exact (show 4 * (tokens text).length + 4 ≤ fuel by omega)
  have related := parseline_related text fuel
  rw [append_nil] at complete
  rw [complete] at related
  generalize parsed : parseline (lexer text) fuel 0 = out at related
  cases related with
  | ok _ rel => exact parsecmd_ok parsed ((tokensAt_eq_nil_iff nul_free rel.1).mp rel.2)

theorem parsecmd_outcome (nul_free : 0 ∉ text) (enough : 4 * text.length + 4 ≤ fuel) :
    (∃ cmd, Derives .line (tokens text) cmd ∧
    parsecmd fuel text = .ok (cmd, nulterminate cmd (buffer text))) ∨
    ∃ why, parsecmd fuel text = .error (.panic why) := by
  have few := length_tokens text
  have sound := (parser_sound fuel).1 (tokens text) (by omega)
  have related := parseline_related text fuel
  generalize parsed : parseline (lexer text) fuel 0 = out at related
  generalize parseline tokenLexer fuel (tokens text) = result' at related sound
  cases related with
  | @ok s ts cmd rel =>
    by_cases whole : skip text s = text.length
    · left
      obtain ⟨used, split, derived⟩ := sound
      rw [← rel.2, (tokensAt_eq_nil_iff nul_free rel.1).mpr whole, append_nil] at split
      rw [← split] at derived
      exact ⟨cmd, derived, parsecmd_ok parsed whole⟩
    · exact .inr ⟨_, parsecmd_leftovers parsed whole⟩
  | error halt =>
    right
    cases halt with
    | outOfFuel => exact sound.elim
    | panic why =>
      refine ⟨why, ?_⟩
      rw [parsecmd, parsed]
      rfl

end

/-- The shell's parser on every line. It returns the tree of the line's derivation when
there is one and ends in a panic otherwise. In the tree that it returns every string is the
text of its token. -/
theorem parsecmd_accepts_grammar (text : List UInt8) (nul_free : 0 ∉ text) {fuel : Nat}
    (enough : 4 * text.length + 4 ≤ fuel) : (∀ cmd, Derives .line (tokens text) cmd ↔
      ∃ buf, parsecmd fuel text = .ok (cmd, buf)) ∧ ((∃ out, parsecmd fuel text = .ok out) ∨
      ∃ reason, parsecmd fuel text = .error (.panic reason)) ∧
    (∀ cmd buf, parsecmd fuel text = .ok (cmd, buf) → ∀ span ∈ cmd.strings,
      .word span ∈ tokens text ∧ Spells buf span.q (span.text text)) := by
  have outcome := parsecmd_outcome nul_free enough
  have returned : ∀ cmd buf, parsecmd fuel text = .ok (cmd, buf) →
      Derives .line (tokens text) cmd ∧ buf = nulterminate cmd (buffer text) := by
    intro cmd buf ran
    rcases outcome with ⟨cmd', derived, ok⟩ | ⟨reason, panics⟩
    · rw [ok] at ran
      cases ran
      exact ⟨derived, rfl⟩
    · rw [panics] at ran
      cases ran
  refine ⟨fun cmd => ⟨?_, ?_⟩, ?_, ?_⟩
  · exact fun derived => ⟨_, parsecmd_of_derives nul_free enough derived⟩
  · rintro ⟨buf, ran⟩
    exact (returned cmd buf ran).1
  · exact outcome.imp_left fun ⟨_, _, ok⟩ => ⟨_, ok⟩
  intro cmd buf ran span among
  obtain ⟨derived, rfl⟩ := returned cmd buf ran
  have words : ∀ other ∈ cmd.strings, WordAt text other := fun other among =>
    word_mem_tokensFrom (derived.strings among)
  exact ⟨derived.strings among, (words span among).spells nul_free among words⟩

/-- The line `a>b|c`, where nothing but operators separates the words. -/
theorem parsecmd_accepts_grammar_pipe : let text := chars "a>b|c"
    parsecmd 24 text = .ok (.pipe (.redir (.exec [⟨0, 1⟩]) ⟨2, 3⟩ 0x601 1) (.exec [⟨4, 5⟩]),
          nulterminate (.pipe (.redir (.exec [⟨0, 1⟩]) ⟨2, 3⟩ 0x601 1) (.exec [⟨4, 5⟩]))
            (buffer text)) ∧ ∀ cmd buf, parsecmd 24 text = .ok (cmd, buf) → ∀ span ∈ cmd.strings,
        .word span ∈ tokens text ∧ Spells buf span.q (span.text text) :=
  ⟨rfl, (parsecmd_accepts_grammar (chars "a>b|c") (by decide) (by decide)).2.2⟩

end Xv6.Shell
