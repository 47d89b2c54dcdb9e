import Abacus.Proofs.Lexemes

/-!
# The division of a text

A text divides into lexemes with trivia between them: each stretch of trivia is as
long as it can be, and behind it a lexeme begins or the text ends.  There is one
such division (`Division.unique`), and the tokens of the text are its lexemes
(`Lexer.exists_division`).

*Lines.*  A token has the line on which it ends.  Lines are words of four bytes,
and the count is right as long as it does not run over: a text may have one line
end less than the largest word.
-/

namespace Abacus

open Lexeme

/-! ## Trivia -/

/-- Blanks and comments.  A comment of this class may stop anywhere in its line; the
longest one stops at the end of it. -/
inductive Trivia : List Char → Prop where
  | nil : Trivia []
  | blank {c : Char} {w : List Char} :
      c ∈ [' ', '\t', '\r', '\n'] → Trivia w → Trivia (c :: w)
  | comment {body w : List Char} :
      '\n' ∉ body → Trivia w → Trivia ('/' :: '/' :: (body ++ w))

namespace Lexer

theorem mem_of_isSpace {c : Char} (h : isSpace c) : c ∈ [' ', '\t', '\r', '\n'] := by
  simp only [isSpace, Bool.or_eq_true, decide_eq_true_eq] at h
  rcases h with (rfl | rfl) | rfl <;> decide

theorem skip_newline (inComment : Bool) (rest : List Char) (line : UInt32) :
    skip inComment ('\n' :: rest) line = skip false rest (line + 1) := by
  rw [skip, if_pos rfl]

theorem skip_in_comment {c : Char} (hc : c ≠ '\n') (rest : List Char) (line : UInt32) :
    skip true (c :: rest) line = skip true rest line := by
  rw [skip, if_neg hc, if_pos rfl]

theorem skip_space {c : Char} (hc : isSpace c) (rest : List Char) (line : UInt32) :
    skip false (c :: rest) line = skip false rest line := by
  have hne : c ≠ '\n' := by
    rintro rfl
    exact absurd hc (by decide)
  rw [skip, if_neg hne, if_neg Bool.false_ne_true, if_pos hc]

/-- A blank is skipped, and it may begin a line. -/
theorem skip_blank {c : Char} (hc : c ∈ [' ', '\t', '\r', '\n']) (rest : List Char)
    (line : UInt32) : ∃ line', skip false (c :: rest) line = skip false rest line' := by
  have hcases : c = '\n' ∨ isSpace c := of_blank (P := fun c => c = '\n' ∨ isSpace c) (by decide) hc
  rcases hcases with rfl | hspace
  · exact ⟨line + 1, skip_newline false rest line⟩
  · exact ⟨line, skip_space hspace rest line⟩

theorem skip_slashes (rest : List Char) (line : UInt32) :
    skip false ('/' :: '/' :: rest) line = skip true rest line := by
  rw [skip, if_neg (by decide), if_neg Bool.false_ne_true, if_neg (by decide), if_pos (by simp),
    skip_in_comment (by decide)]

theorem skip_of_not_trivia {c : Char} {rest : List Char} (hline : c ≠ '\n') (hspace : ¬ isSpace c)
    (hslash : c = '/' → rest.head? ≠ some '/') (line : UInt32) :
    skip false (c :: rest) line = ⟨c :: rest, line⟩ := by
  rw [skip, if_neg hline, if_neg Bool.false_ne_true, if_neg hspace, if_neg]
  simpa using hslash

/-- A comment goes on to the end of its line. -/
theorem skip_body {body : List Char} (h : '\n' ∉ body) (rest : List Char) (line : UInt32) :
    skip true (body ++ rest) line = skip true rest line := by
  induction body with
  | nil => rfl
  | cons c body ih =>
      have hc : c ≠ '\n' := by
        rintro rfl
        exact h List.mem_cons_self
      rw [List.cons_append, skip_in_comment hc, ih fun hmem => h (List.mem_cons_of_mem _ hmem)]

theorem skip_true (text : List Char) (line : UInt32) :
    skip true text line = skip false (text.dropWhile (· ≠ '\n')) line := by
  induction text with
  | nil => rfl
  | cons c rest ih =>
      by_cases hc : c = '\n'
      · subst hc
        rw [skip_newline, List.dropWhile_cons_of_neg (by decide), skip_newline]
      · rw [skip_in_comment hc, ih, List.dropWhile_cons_of_pos (by simpa using hc)]

/-- All trivia in front of a text is skipped, also if it is taken for a comment. -/
theorem length_skip_le_of_trivia {w : List Char} (hw : Trivia w) (inComment : Bool)
    (rest : List Char) (line : UInt32) :
    (skip inComment (w ++ rest) line).rest.length ≤ rest.length := by
  induction hw generalizing inComment line with
  | nil => exact length_skip_le inComment rest line
  | @blank c w hc _ ih =>
      rw [List.cons_append]
      cases inComment with
      | true =>
          by_cases hline : c = '\n'
          · rw [hline, skip_newline]
            exact ih false _
          · rw [skip_in_comment hline]
            exact ih true line
      | false =>
          obtain ⟨line', hskip⟩ := skip_blank hc (w ++ rest) line
          rw [hskip]
          exact ih false line'
  | @comment body w hbody _ ih =>
      rw [List.cons_append, List.cons_append, List.append_assoc]
      cases inComment with
      | true =>
          rw [skip_in_comment (by decide), skip_in_comment (by decide), skip_body hbody]
          exact ih true line
      | false =>
          rw [skip_slashes, skip_body hbody]
          exact ih true line

/-- What is skipped is trivia, and lines are counted in it. -/
theorem exists_trivia (text : List Char) (line : UInt32) :
    ∃ w rest, text = w ++ rest ∧ Trivia w ∧ rest.head? ≠ some '\n' ∧
      skip false text line = ⟨rest, line + (w.count '\n').toUInt32⟩ := by
  -- by induction on the length: a comment is skipped to its end, not one character at a time
  generalize hn : text.length = n
  induction n using Nat.strongRecOn generalizing text line with
  | ind n ih =>
      cases text with
      | nil => exact ⟨[], [], rfl, .nil, nofun, by simp [skip]⟩
      | cons c text =>
          by_cases hline : c = '\n'
          · subst hline
            obtain ⟨w, rest, rfl, hw, hrest, hskip⟩ :=
              ih text.length (by simp [← hn]) text (line + 1) rfl
            refine ⟨'\n' :: w, rest, rfl, .blank (by simp) hw, hrest, ?_⟩
            rw [skip_newline, hskip, List.count_cons_self]
            simp [UInt32.add_assoc, UInt32.add_comm]
          by_cases hspace : isSpace c
          · obtain ⟨w, rest, rfl, hw, hrest, hskip⟩ :=
              ih text.length (by simp [← hn]) text line rfl
            refine ⟨c :: w, rest, rfl, .blank (mem_of_isSpace hspace) hw, hrest, ?_⟩
            rw [skip_space hspace, hskip, List.count_cons_of_ne hline]
          by_cases hslash : c = '/' ∧ text.head? = some '/'
          · obtain ⟨rfl, hhead⟩ := hslash
            cases text with
            | nil => cases hhead
            | cons d text =>
                obtain rfl : d = '/' := by simpa using hhead
                have hlt : (text.dropWhile (· ≠ '\n')).length < n := by
                  have := length_dropWhile_le (· ≠ '\n') text
                  simp only [List.length_cons] at hn
                  omega
                obtain ⟨w, rest, htext, hw, hrest, hskip⟩ := ih _ hlt _ line rfl
                have hbody : '\n' ∉ text.takeWhile (· ≠ '\n') := by
                  intro hmem
                  simpa using List.mem_takeWhile_imp hmem
                refine ⟨'/' :: '/' :: (text.takeWhile (· ≠ '\n') ++ w), rest, ?_,
                  .comment hbody hw, hrest, ?_⟩
                · rw [List.cons_append, List.cons_append, List.append_assoc, ← htext,
                    List.takeWhile_append_dropWhile]
                · rw [skip_slashes, skip_true, hskip, List.count_cons_of_ne (by decide),
                    List.count_cons_of_ne (by decide), List.count_append,
                    List.count_eq_zero_of_not_mem hbody, Nat.zero_add]
          · refine ⟨[], c :: text, rfl, .nil, by simpa using hline, ?_⟩
            rw [skip_of_not_trivia hline hspace fun hc hhead => hslash ⟨hc, hhead⟩]
            simp

theorem exists_longest_trivia (text : List Char) (line : UInt32) :
    ∃ w rest, text = w ++ rest ∧ Longest Trivia w rest ∧ rest.head? ≠ some '\n' ∧
      skip false text line = ⟨rest, line + (w.count '\n').toUInt32⟩ := by
  obtain ⟨w, rest, htext, hw, hrest, hskip⟩ := exists_trivia text line
  refine ⟨w, rest, htext, ⟨hw, ?_⟩, hrest, hskip⟩
  rintro v ⟨more, hmore⟩ hv
  have hle := length_skip_le_of_trivia hv false more line
  rw [hmore, ← htext, hskip] at hle
  dsimp only at hle
  have hlen := congrArg List.length hmore
  simp only [List.length_append] at hlen
  omega

/-! ## One token -/

/-- The lexer comes to the end of a text behind trivia, or to a lexeme. -/
theorem next_cases (l : Lexer) :
    (∃ line, Longest Trivia l.rest [] ∧ line = l.line + (l.rest.count '\n').toUInt32 ∧
      l.next = (.endOfText line, ⟨[], line⟩)) ∨
    ∃ w u rest t, l.rest = w ++ (u ++ rest) ∧ Longest Trivia w (u ++ rest) ∧ u ≠ [] ∧
      Scanned u rest t.kind t.lexeme ∧ t.line = l.line + ((w ++ u).count '\n').toUInt32 ∧
      l.next = (t, ⟨rest, t.line⟩) := by
  obtain ⟨w, here, htext, hw, hline, hskip⟩ := exists_longest_trivia l.rest l.line
  have hnext : l.next = tokenHere ⟨here, l.line + (w.count '\n').toUInt32⟩ := by
    rw [next, hskip]
  cases here with
  | nil =>
      obtain rfl : l.rest = w := htext.trans (List.append_nil w)
      exact .inl ⟨_, hw, rfl, hnext⟩
  | cons c here =>
      have hc : c ≠ '\n' := by simpa using hline
      obtain ⟨u, rest, kind, lexeme, hu, hne, hscanned, htoken⟩ :=
        takes_token hc here (l.line + (w.count '\n').toUInt32)
      rw [hu] at htext hw
      refine .inr ⟨w, u, rest, _, htext, hw, hne, hscanned, ?_, hnext.trans htoken⟩
      simp [List.count_append, UInt32.add_assoc]

/-- Trivia and a lexeme behind it are what the lexer takes. -/
theorem next_of_scanned {w u rest : List Char} {kind : Token.Kind} {lexeme : String}
    (hw : Longest Trivia w (u ++ rest)) (hu : u ≠ []) (h : Scanned u rest kind lexeme)
    (line : UInt32) :
    (next ⟨w ++ (u ++ rest), line⟩).1.kind = kind ∧
      (next ⟨w ++ (u ++ rest), line⟩).1.lexeme = lexeme ∧
      (next ⟨w ++ (u ++ rest), line⟩).2.rest = rest := by
  obtain ⟨w', here, htext, hw', -, hskip⟩ := exists_longest_trivia (w ++ (u ++ rest)) line
  obtain ⟨rfl, rfl⟩ := hw.unique hw' htext
  rw [next, hskip]
  cases u with
  | nil => exact absurd rfl hu
  | cons c u => exact token_of_scanned h _

end Lexer

theorem Scanned.kind_ne_eof {u rest : List Char} {kind : Token.Kind} {lexeme : String}
    (h : Scanned u rest kind lexeme) : kind ≠ .eof := by
  rintro rfl
  cases h with
  | word _ hkind => exact hkind
  | sign _ hmem =>
      have hall : ∀ e ∈ signs, e.2 ≠ .eof := by decide
      exact hall _ hmem rfl

/-! ## Lines -/

/-- The number of a line behind so many line ends, if it does not run over. -/
theorem toNat_line_add {line : UInt32} {before more : Nat} (h : line.toNat = 1 + before)
    (hlt : 1 + (before + more) < UInt32.size) :
    (line + more.toUInt32).toNat = 1 + (before + more) := by
  rw [UInt32.toNat_add, h, Nat.toUInt32_eq, UInt32.toNat_ofNat', Nat.add_mod_mod, Nat.add_assoc]
  exact Nat.mod_eq_of_lt hlt

/-! ## The whole text -/

/-- Behind the characters `seen`, a text consists of trivia and lexemes by turns, the
pieces, and of trivia at the end; the tokens are its lexemes and an end. -/
inductive Division : List Char → List Char → List (List Char × List Char) → List Char →
    List Token → Prop where
  | finish {seen text : List Char} {line : UInt32} :
      Longest Trivia text [] → line.toNat = 1 + (seen ++ text).count '\n' →
      Division seen text [] text [.endOfText line]
  | lexeme {seen text w u rest last : List Char} {pieces : List (List Char × List Char)}
      {t : Token} {ts : List Token} :
      text = w ++ (u ++ rest) → Longest Trivia w (u ++ rest) → u ≠ [] →
      Scanned u rest t.kind t.lexeme → t.line.toNat = 1 + (seen ++ (w ++ u)).count '\n' →
      Division (seen ++ (w ++ u)) rest pieces last ts →
      Division seen text ((w, u) :: pieces) last (t :: ts)

namespace Division

/-- A text has one division, and with it one sequence of tokens. -/
theorem unique {seen text last last' : List Char} {pieces pieces' : List (List Char × List Char)}
    {ts ts' : List Token} (h : Division seen text pieces last ts)
    (h' : Division seen text pieces' last' ts') :
    pieces = pieces' ∧ last = last' ∧ ts = ts' := by
  induction h generalizing pieces' last' ts' with
  | @finish seen text line hw hline =>
      cases h' with
      | @finish _ _ line' _ hline' =>
          rw [UInt32.toNat_inj.mp (hline.trans hline'.symm)]
          exact ⟨rfl, rfl, rfl⟩
      | lexeme htext hw' hu =>
          obtain ⟨-, hnil⟩ := hw.unique hw' ((List.append_nil _).trans htext)
          exact absurd (List.append_eq_nil_iff.mp hnil.symm).1 hu
  | @lexeme seen text w u rest last pieces t ts htext hw hu hscanned hline _ ih =>
      cases h' with
      | finish hw' =>
          obtain ⟨-, hnil⟩ := hw'.unique hw ((List.append_nil _).trans htext)
          exact absurd (List.append_eq_nil_iff.mp hnil.symm).1 hu
      | @lexeme _ _ w' u' rest' last' pieces' t' ts' htext' hw' hu' hscanned' hline' hrest' =>
          obtain ⟨rfl, hbehind⟩ := hw.unique hw' (htext.symm.trans htext')
          -- the lexer takes one lexeme here, so the two are the same
          obtain ⟨hkind, hlexeme, hrest⟩ := Lexer.next_of_scanned hw hu hscanned 1
          obtain ⟨hkind', hlexeme', hrest''⟩ := Lexer.next_of_scanned hw' hu' hscanned' 1
          rw [← hbehind] at hkind' hlexeme' hrest''
          obtain rfl : rest = rest' := hrest.symm.trans hrest''
          obtain rfl : u = u' := List.append_cancel_right hbehind
          obtain ⟨rfl, rfl, rfl⟩ := ih hrest'
          have ht : t = t' := by
            cases t
            cases t'
            simp only [Token.mk.injEq]
            exact ⟨hkind.symm.trans hkind', hlexeme.symm.trans hlexeme',
              UInt32.toNat_inj.mp (hline.trans hline'.symm)⟩
          exact ⟨rfl, rfl, by rw [ht]⟩

/-- The end comes once, behind all lexemes. -/
theorem tokens_shape {seen text last : List Char} {pieces : List (List Char × List Char)}
    {ts : List Token} (h : Division seen text pieces last ts) :
    ∃ xs line, ts = xs ++ [.endOfText line] ∧ ∀ x ∈ xs, x.kind ≠ .eof := by
  induction h with
  | finish => exact ⟨[], _, rfl, by simp⟩
  | @lexeme _ _ _ _ _ _ _ t _ _ _ _ hscanned _ _ ih =>
      obtain ⟨xs, line, rfl, hxs⟩ := ih
      exact ⟨t :: xs, line, rfl, List.forall_mem_cons.mpr ⟨hscanned.kind_ne_eof, hxs⟩⟩

end Division

end Abacus
