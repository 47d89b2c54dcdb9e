import Abacus.Proofs.Replaying
import Abacus.Proofs.Tokenizing

/-!
# Layout

A text is laid out anew by writing its lexemes in the same order with other
separators between them.  A separator begins with a blank and may go on with more
blanks and with comments that end within it.  The new text has the tokens of the old
one, but for their lines, and is compiled to the same code, but for the lines.

*Behind a lexeme.*  Where a token ends depends on what follows it.  But no word, number
or sign has a blank in it, so whatever belongs to one of these classes is the
longest of its class in front of a blank (`Longest.before_break`), and the place where
the lexeme stood before need not be compared with the new one.

*In front of a lexeme.*  Trivia ends where a lexeme begins.  The one lexeme that begins
like trivia is a slash, and it would become part of a comment if a slash stood behind
it; this is why a separator begins with a blank and not with a comment.
-/

namespace Abacus

open Lexeme

/-- Blanks, and comments with the line end behind them. -/
inductive Filling : List Char → Prop where
  | nil : Filling []
  | blank {c : Char} {w : List Char} :
      c ∈ [' ', '\t', '\r', '\n'] → Filling w → Filling (c :: w)
  | comment {body w : List Char} :
      '\n' ∉ body → Filling w → Filling ('/' :: '/' :: (body ++ '\n' :: w))

/-- A blank, and more behind it. -/
def Separator (w : List Char) : Prop :=
  ∃ c v, w = c :: v ∧ c ∈ [' ', '\t', '\r', '\n'] ∧ Filling v

/-- Lexemes, each behind a separator. -/
inductive Spaced : List String → List Char → Prop where
  | nil : Spaced [] []
  | cons {lexeme : String} {lexemes : List String} {w text : List Char} :
      Separator w → Spaced lexemes text →
      Spaced (lexeme :: lexemes) (w ++ (lexeme.toList ++ text))

/-- Lexemes with separators between them. -/
inductive Joined : List String → List Char → Prop where
  | nil : Joined [] []
  | cons {lexeme : String} {lexemes : List String} {text : List Char} :
      Spaced lexemes text → Joined (lexeme :: lexemes) (lexeme.toList ++ text)

/-- The text is at its end or goes on with a blank. -/
def Breaks (text : List Char) : Prop := ∀ c ∈ text.head?, c ∈ [' ', '\t', '\r', '\n']

theorem Separator.filling {w : List Char} (h : Separator w) : Filling w := by
  obtain ⟨c, v, rfl, hc, hv⟩ := h
  exact .blank hc hv

theorem Spaced.breaks {lexemes : List String} {text : List Char} (h : Spaced lexemes text) :
    Breaks text := by
  cases h with
  | nil => exact nofun
  | cons hw _ =>
      obtain ⟨c, v, rfl, hc, -⟩ := hw
      intro d hd
      obtain rfl : c = d := by simpa using hd
      exact hc

/-! ## A lexeme in front of a blank -/

/-- Whatever belongs to a class without blanks is the longest of it in front of one. -/
theorem Longest.before_break {P : List Char → Prop} {u rest : List Char}
    (hP : ∀ {v}, P v → ∀ {c}, c ∈ [' ', '\t', '\r', '\n'] → c ∉ v) (hu : P u)
    (hrest : Breaks rest) : Longest P u rest := by
  refine .of_not hu fun d v hv hlonger => ?_
  have hd : d ∈ rest.head? := by
    obtain ⟨more, rfl⟩ := hv
    rfl
  exact hP hlonger (hrest d hd) (by simp)

namespace Scanned

variable {u rest : List Char} {kind : Token.Kind} {lexeme : String}

theorem lexeme_eq (h : Scanned u rest kind lexeme) (hk : kind ≠ .error) :
    lexeme = String.ofList u := by
  cases h with
  | unterminated => exact absurd rfl hk
  | unexpected => exact absurd rfl hk
  | _ => rfl

/-- A lexeme can be moved in front of a blank. -/
theorem before_break (h : Scanned u rest kind lexeme) (hk : kind ≠ .error) {rest' : List Char}
    (hrest : Breaks rest') : Scanned u rest' kind lexeme := by
  cases h with
  | word hword hkind => exact .word (.before_break IsWord.not_mem_of_blank hword.mem hrest) hkind
  | number hnumber => exact .number (.before_break IsNumber.not_mem_of_blank hnumber.mem hrest)
  | sign hsign hmem => exact .sign (.before_break IsSign.not_mem_of_blank hsign.mem hrest) hmem
  | string hu hinside => exact .string hu hinside
  | unterminated => exact absurd rfl hk
  | unexpected => exact absurd rfl hk

/-- No lexeme begins with a blank, and the one that begins with a slash is a slash. -/
theorem first {c : Char} (h : Scanned (c :: u) rest kind lexeme) (hk : kind ≠ .error) :
    c ∉ [' ', '\t', '\r', '\n'] ∧ (c = '/' → u = []) := by
  cases h with
  | word hword =>
      refine ⟨fun hc => hword.mem.not_mem_of_blank hc List.mem_cons_self, ?_⟩
      rintro rfl
      exact absurd (hword.mem.forall_mem '/' List.mem_cons_self) (by decide)
  | number hnumber =>
      refine ⟨fun hc => hnumber.mem.not_mem_of_blank hc List.mem_cons_self, ?_⟩
      rintro rfl
      exact absurd (hnumber.mem.forall_mem '/' List.mem_cons_self) (by decide)
  | sign hsign hmem =>
      refine ⟨fun hc => hsign.mem.not_mem_of_blank hc List.mem_cons_self, ?_⟩
      have hall : ∀ e ∈ signs, e.1.head? = some '/' → e.1 = ['/'] := by decide
      rintro rfl
      exact (List.cons.inj (hall _ hmem rfl)).2
  | string hu =>
      obtain ⟨rfl, -⟩ := List.cons.inj hu
      exact ⟨by decide, fun hc => absurd hc (by decide)⟩
  | unterminated => exact absurd rfl hk
  | unexpected => exact absurd rfl hk

end Scanned

/-! ## Tokens of a text that is laid out anew -/

/-- A token without its line. -/
def Token.withoutLine (t : Token) : Token.Kind × String := (t.kind, t.lexeme)

/-- The lexeme of a token is how the token is written. -/
structure Token.Written (t : Token) : Prop where
  kind_ne_error : t.kind ≠ .error
  ne_nil : t.lexeme.toList ≠ []
  scanned : ∃ rest, Scanned t.lexeme.toList rest t.kind t.lexeme

namespace Lexer

theorem written_of_mem {l : Lexer} {t : Token} (ht : t ∈ l.tokens) (hend : t.kind ≠ .eof)
    (herror : t.kind ≠ .error) : t.Written := by
  fun_induction tokens l with
  | case1 l step h =>
      obtain rfl := List.mem_singleton.mp ht
      exact absurd h hend
  | case2 l step h ih =>
      rcases List.mem_cons.mp ht with rfl | ht
      · rcases l.next_cases with ⟨line, -, -, hnext⟩ | ⟨w, u, rest, t, -, -, hu, hs, -, hnext⟩
        · exact absurd (congrArg (·.1.kind) hnext) hend
        · obtain rfl : step.1 = t := congrArg Prod.fst hnext
          have hlexeme : step.1.lexeme.toList = u := by
            rw [hs.lexeme_eq herror, String.toList_ofList]
          exact ⟨herror, hlexeme ▸ hu, rest, hlexeme ▸ hs⟩
      · exact ih ht

theorem skip_filling {w : List Char} (hw : Filling w) (text : List Char) (line : UInt32) :
    ∃ line', skip false (w ++ text) line = skip false text line' := by
  induction hw generalizing line with
  | nil => exact ⟨line, rfl⟩
  | @blank c w hc _ ih =>
      obtain ⟨next, hblank⟩ := skip_blank hc (w ++ text) line
      obtain ⟨line', hskip⟩ := ih next
      exact ⟨line', hblank.trans hskip⟩
  | @comment body w hbody _ ih =>
      obtain ⟨line', hskip⟩ := ih (line + 1)
      refine ⟨line', ?_⟩
      rw [List.cons_append, List.cons_append, List.append_assoc, List.cons_append, skip_slashes,
        skip_body hbody, skip_newline, hskip]

/-- A lexeme is found again behind other trivia and in front of another blank. -/
theorem next_of_written {w rest : List Char} {t : Token} (hw : Filling w) (ht : t.Written)
    (hrest : Breaks rest) (line : UInt32) :
    ∃ t' line', next ⟨w ++ (t.lexeme.toList ++ rest), line⟩ = (t', ⟨rest, line'⟩) ∧
      t'.withoutLine = t.withoutLine := by
  obtain ⟨hk, hne, before, hscanned⟩ := ht
  obtain ⟨c, u, hu⟩ := List.exists_cons_of_ne_nil hne
  rw [hu] at hscanned
  obtain ⟨hblank, hslash⟩ := hscanned.first hk
  obtain ⟨here, hskip⟩ := skip_filling hw (t.lexeme.toList ++ rest) line
  have hnext : next ⟨w ++ (t.lexeme.toList ++ rest), line⟩ = token c (u ++ rest) here := by
    rw [next, hskip, hu, List.cons_append, skip_of_not_trivia]
    · rfl
    · rintro rfl
      exact hblank (by decide)
    · exact fun hspace => hblank (mem_of_isSpace hspace)
    · intro hc hhead
      rw [hslash hc] at hhead
      exact absurd (hrest '/' hhead) (by decide)
  obtain ⟨hkind, hlexeme, hbehind⟩ := token_of_scanned (hscanned.before_break hk hrest) here
  rcases htoken : token c (u ++ rest) here with ⟨t', behind, line'⟩
  rw [htoken] at hkind hlexeme hbehind
  dsimp only at hbehind
  subst hbehind
  exact ⟨t', line', hnext.trans htoken, Prod.ext hkind hlexeme⟩

theorem tokens_of_written {w rest : List Char} {t : Token} (hw : Filling w) (ht : t.Written)
    (hrest : Breaks rest) (line : UInt32) :
    ∃ line', (tokens ⟨w ++ (t.lexeme.toList ++ rest), line⟩).map Token.withoutLine =
      t.withoutLine :: (tokens ⟨rest, line'⟩).map Token.withoutLine := by
  obtain ⟨t', line', hnext, hsame⟩ := next_of_written hw ht hrest line
  obtain ⟨before, hscanned⟩ := ht.scanned
  have hkind : t'.kind = t.kind := congrArg Prod.fst hsame
  refine ⟨line', ?_⟩
  rw [tokens_of_not_end (by rw [hnext, hkind]; exact hscanned.kind_ne_eof), hnext, List.map_cons,
    hsame]

theorem tokens_of_spaced {ts : List Token} {text : List Char}
    (h : Spaced (ts.map Token.lexeme) text) (hts : ∀ t ∈ ts, t.Written) (line : UInt32) :
    (tokens ⟨text, line⟩).map Token.withoutLine = ts.map Token.withoutLine ++ [(.eof, "")] := by
  induction ts generalizing text line with
  | nil =>
      cases h
      rw [tokens_of_end rfl]
      rfl
  | cons t ts ih =>
      obtain ⟨ht, hts⟩ := List.forall_mem_cons.mp hts
      cases h with
      | cons hw hspaced =>
          obtain ⟨line', htokens⟩ := tokens_of_written hw.filling ht hspaced.breaks line
          rw [htokens, ih hspaced hts]
          rfl

theorem tokens_of_joined {ts : List Token} {text : List Char}
    (h : Joined (ts.map Token.lexeme) text) (hts : ∀ t ∈ ts, t.Written) (line : UInt32) :
    (tokens ⟨text, line⟩).map Token.withoutLine = ts.map Token.withoutLine ++ [(.eof, "")] := by
  cases ts with
  | nil =>
      cases h
      exact @tokens_of_spaced [] [] .nil hts line
  | cons t ts =>
      obtain ⟨ht, hts⟩ := List.forall_mem_cons.mp hts
      cases h with
      | cons hspaced =>
          obtain ⟨line', htokens⟩ := tokens_of_written .nil ht hspaced.breaks line
          rw [List.nil_append] at htokens
          rw [htokens, tokens_of_spaced hspaced hts]
          rfl

end Lexer

/-! ## Compilations of a text that is laid out anew -/

/-- A diagnostic without its line. -/
def Diagnostic.withoutLine (d : Diagnostic) : Location × Problem := (d.location, d.problem)

namespace Compiler

/-- Two compilations differ in lines only. -/
structure Compilation.SameButLines (c c' : Compilation) : Prop where
  code : c.chunk.code = c'.chunk.code
  consts : c.chunk.consts = c'.chunk.consts
  lines : c.chunk.lines.size = c'.chunk.lines.size
  success : c.result.isOk = c'.result.isOk
  diagnostic :
    c.diagnostic.map Diagnostic.withoutLine = c'.diagnostic.map Diagnostic.withoutLine

theorem Compilation.isOk_result (c : Compilation) : c.result.isOk = c.diagnostic.isNone := by
  unfold result
  split
  next h => rw [h]; rfl
  next h => rw [h]; rfl

/-- Only lines depend on lines. -/
theorem compile_sameButLines {text text' : String}
    (h : (tokensOf text).map Token.withoutLine = (tokensOf text').map Token.withoutLine)
    (options : Options) : (compile options text).SameButLines (compile options text') := by
  let see : UInt32 → UInt32 := fun _ => 0
  have hreplays : SameTokens see (⟨tokensOf text, 1⟩ : Replay) (⟨tokensOf text', 1⟩ : Replay) := by
    refine Replay.sameTokens ?_ rfl
    have hmap := congrArg (List.map fun p : Token.Kind × String => (⟨p.1, p.2, 0⟩ : Token)) h
    rwa [List.map_map, List.map_map] at hmap
  have hsame : SameTokens see (Lexer.start text) (Lexer.start text') := by
    intro n
    rw [← (Lexer.start text).nth_replay 1, ← (Lexer.start text').nth_replay 1]
    exact hreplays n
  obtain ⟨hchunk, hdiagnostic⟩ := compileFrom_alike options hsame
  obtain ⟨hcode, hlines, hconsts⟩ := (Chunk.through_eq_iff see).mp hchunk
  have hsize := congrArg Array.size hlines
  rw [Array.size_map, Array.size_map] at hsize
  have hpairs := congrArg (Option.map Diagnostic.withoutLine) hdiagnostic
  rw [Option.map_map, Option.map_map] at hpairs
  have hnone := congrArg Option.isNone hdiagnostic
  rw [Option.isNone_map, Option.isNone_map] at hnone
  refine ⟨hcode, hconsts, hsize, ?_, hpairs⟩
  rw [Compilation.isOk_result, Compilation.isOk_result]
  exact hnone

/-- A text without errors has the same tokens if it is laid out anew, but for their
lines, and compiling it comes to the same, but for the lines. -/
theorem layout_keeps_meaning {text text' : String}
    (herror : ∀ t ∈ tokensOf text, t.kind ≠ .error)
    (h : Joined ((tokensBeforeEnd text).map Token.lexeme) text'.toList) :
    (tokensOf text').map Token.withoutLine = (tokensOf text).map Token.withoutLine ∧
    ∀ options, (compile options text').SameButLines (compile options text) := by
  obtain ⟨ts, e, htokens, he, hts⟩ := (Lexer.start text).tokens_shape
  have hend : e = .endOfText e.line :=
    Lexer.eq_endOfText_of_mem (by rw [htokens]; simp) he
  have hbefore : tokensBeforeEnd text = ts := (tokensBeforeEnd_eq_iff hts).mpr ⟨e, he, htokens⟩
  have hwritten : ∀ t ∈ ts, t.Written := by
    intro t ht
    have hmem : t ∈ (Lexer.start text).tokens := by simp [htokens, ht]
    exact Lexer.written_of_mem hmem (hts t ht) (herror t hmem)
  rw [hbefore] at h
  have hsame : (tokensOf text').map Token.withoutLine = (tokensOf text).map Token.withoutLine := by
    rw [tokensOf, tokensOf, htokens, List.map_append, hend]
    exact Lexer.tokens_of_joined h hwritten 1
  exact ⟨hsame, compile_sameButLines hsame⟩

/-- A number with a point, a slash in front of a comment, and a string over two lines. -/
theorem layout_keeps_meaning_of_division :
    (∀ t ∈ tokensOf "1.5/\"a\nb\"", t.kind ≠ .error) ∧
    Joined ["1.5", "/", "\"a\nb\""] "1.5\t\n/ //c\n\"a\nb\"".toList ∧
    (tokensOf "1.5\t\n/ //c\n\"a\nb\"").map Token.withoutLine =
      (tokensOf "1.5/\"a\nb\"").map Token.withoutLine ∧
    ∀ options, (compile options "1.5\t\n/ //c\n\"a\nb\"").SameButLines
      (compile options "1.5/\"a\nb\"") := by
  have herror : ∀ t ∈ tokensOf "1.5/\"a\nb\"", t.kind ≠ .error := by decide +kernel
  have hlexemes : (tokensBeforeEnd "1.5/\"a\nb\"").map Token.lexeme = ["1.5", "/", "\"a\nb\""] := by
    decide +kernel
  have htext : "1.5\t\n/ //c\n\"a\nb\"".toList = "1.5".toList ++ (['\t', '\n'] ++ ("/".toList ++
      ([' ', '/', '/', 'c', '\n'] ++ ("\"a\nb\"".toList ++ [])))) := by decide
  have hnewline : Separator ['\t', '\n'] :=
    ⟨_, _, rfl, by decide, .blank (by decide) .nil⟩
  have hcomment : Separator [' ', '/', '/', 'c', '\n'] :=
    ⟨_, _, rfl, by decide, @Filling.comment ['c'] [] (by decide) .nil⟩
  have hjoined : Joined ["1.5", "/", "\"a\nb\""] "1.5\t\n/ //c\n\"a\nb\"".toList :=
    htext ▸ .cons (.cons hnewline (.cons hcomment .nil))
  exact ⟨herror, hjoined, layout_keeps_meaning herror (hlexemes ▸ hjoined)⟩

end Compiler

end Abacus
