import Abacus.Proofs.Scanning
import Abacus.Proofs.Translation
import Mathlib.Data.List.Dedup

/-!
# Which texts compile

A text compiles exactly if it is an expression, is not nested too deeply, and
has numbers that fit into the pool.  The statement about sources in
`Abacus.Proofs.Translation` is brought to texts, where two of its conditions say
nothing: the end of a text can always be passed, and a number of a text can
always be read.

*Numbers.*  The compiler reports a problem with a number that cannot be read.
No text leads to that problem.  This does not follow from what holds of texts
that compile, since a text may have other faults; it is an invariant of every
state of a compilation, `State.Legible`.

*The pool.*  Without sharing a pool has one entry for each number, and with
sharing one for each value.
-/

namespace Abacus

/-! ## The numbers of a tree -/

/-- The token is no number, or one that can be read. -/
def Token.Readable (t : Token) : Prop :=
  t.kind = .number → (Value.read? t.lexeme.toList).isSome

theorem Tree.isSome_value?_binary {l r : Tree} {o : Token} (ho : o.kind.operator?.isSome)
    (hl : l.value?.isSome) (hr : r.value?.isSome) : (Tree.binary l o r).value?.isSome := by
  obtain ⟨op, hop⟩ := Option.isSome_iff_exists.mp ho
  obtain ⟨a, ha⟩ := Option.isSome_iff_exists.mp hl
  obtain ⟨b, hb⟩ := Option.isSome_iff_exists.mp hr
  simp [Tree.value?, hop, ha, hb]

/-- A tree has a value if its numbers can be read. -/
theorem Derives.isSome_value? {c : Category} {t : Tree} (h : Derives c t)
    (hread : ∀ u ∈ t.tokens, u.Readable) : t.value?.isSome := by
  induction h with
  | number hk => exact hread _ List.mem_cons_self hk
  | group _ _ _ ih =>
      refine ih fun u hu => hread u ?_
      simp [Tree.tokens, hu]
  | primary _ ih => exact ih hread
  | negation _ _ ih =>
      rw [Tree.value?, Option.isSome_map]
      exact ih fun u hu => hread u (List.mem_cons_of_mem _ hu)
  | unary _ ih => exact ih hread
  | product _ ho _ ihl ihr =>
      refine Tree.isSome_value?_binary ?_ (ihl fun u hu => hread u ?_)
        (ihr fun u hu => hread u ?_)
      · rcases ho with ho | ho <;> simp [ho, Token.Kind.operator?]
      · simp [Tree.tokens, hu]
      · simp [Tree.tokens, hu]
  | term _ ih => exact ih hread
  | sum _ ho _ ihl ihr =>
      refine Tree.isSome_value?_binary ?_ (ihl fun u hu => hread u ?_)
        (ihr fun u hu => hread u ?_)
      · rcases ho with ho | ho <;> simp [ho, Token.Kind.operator?]
      · simp [Tree.tokens, hu]
      · simp [Tree.tokens, hu]

/-- The values of a tree are those of its numbers. -/
theorem Tree.map_read?_literals {t : Tree} (h : t.value?.isSome) :
    t.literals.map (fun u => Value.read? u.lexeme.toList) = t.values.map some := by
  induction t with
  | number u =>
      obtain ⟨v, hv⟩ := Option.isSome_iff_exists.mp h
      rw [value?] at hv
      simp [values, literals, hv]
  | group _ e _ ih => exact ih h
  | negation _ e ih =>
      rw [value?, Option.isSome_map] at h
      exact ih h
  | binary l o r ihl ihr =>
      obtain ⟨op, a, b, -, ha, hb⟩ := value?_binary h
      simp [values, literals, ihl (by simp [ha]), ihr (by simp [hb])]

/-- A tree that has a value has one value for each of its numbers. -/
theorem Tree.length_values {t : Tree} (h : t.value?.isSome) :
    t.values.length = t.literals.length := by
  have hlength := congrArg List.length (map_read?_literals h)
  rw [List.length_map, List.length_map] at hlength
  exact hlength.symm

/-! ## The size of a pool -/

namespace Pool

theorem foldl_add_false (pool vs : List Value) : vs.foldl (add false) pool = pool ++ vs := by
  induction vs generalizing pool with
  | nil => simp
  | cons v vs ih => simp [add, ih]

theorem mem_add {share : Bool} {pool : List Value} {v w : Value} :
    w ∈ add share pool v ↔ w ∈ pool ∨ w = v := by
  unfold add
  split
  next h =>
    constructor
    · exact .inl
    · rintro (hw | rfl)
      · exact hw
      · exact h.2
  next => rw [List.mem_append, List.mem_singleton]

theorem mem_foldl_add {share : Bool} {pool vs : List Value} {w : Value} :
    w ∈ vs.foldl (add share) pool ↔ w ∈ pool ∨ w ∈ vs := by
  induction vs generalizing pool with
  | nil => simp
  | cons v vs ih => rw [List.foldl_cons, ih, mem_add, List.mem_cons, or_assoc]

/-- A pool with sharing never holds a value twice. -/
theorem nodup_foldl_add {pool : List Value} (h : pool.Nodup) (vs : List Value) :
    (vs.foldl (add true) pool).Nodup := by
  induction vs generalizing pool with
  | nil => exact h
  | cons v vs ih =>
      refine ih ?_
      unfold add
      split
      next => exact h
      next hv =>
        refine List.nodup_append.mpr ⟨h, List.nodup_singleton v, ?_⟩
        intro a ha b hb
        rw [List.mem_singleton.mp hb]
        rintro rfl
        exact hv ⟨rfl, ha⟩

/-- A pool with sharing has one entry for each value. -/
theorem length_foldl_add_true (vs : List Value) :
    (vs.foldl (add true) []).length = vs.dedup.length := by
  refine List.Perm.length_eq ?_
  refine (List.perm_ext_iff_of_nodup (nodup_foldl_add List.nodup_nil vs)
    (List.nodup_dedup vs)).mpr fun w => ?_
  rw [mem_foldl_add, List.mem_dedup]
  simp

end Pool

/-- The code of a tree that has a value can be written exactly if there are not
too many numbers, or values with sharing. -/
theorem Tree.isSome_generate?_empty_iff {share : Bool} {t : Tree} (h : t.value?.isSome) :
    (t.generate? share .empty).isSome ↔
      (share = false → t.literals.length ≤ Chunk.poolLimit) ∧
      (share = true → t.values.dedup.length ≤ Chunk.poolLimit) := by
  rw [isSome_generate?_iff h (Nat.zero_le _)]
  change (t.values.foldl (Pool.add share) []).length ≤ Chunk.poolLimit ↔ _
  cases share with
  | false => simp [Pool.foldl_add_false, length_values h]
  | true => simp [Pool.length_foldl_add_true]

/-! ## Texts -/

namespace Lexer

/-- Wherever one arrives in a text, the lexer has handed out the token there. -/
theorem exists_next_of_passes {l : Lexer} {ts : List Token} {q : Position Lexer}
    (h : Passes (TokenSource.next l) ts q) : ∃ l' : Lexer, TokenSource.next l' = q := by
  generalize hp : TokenSource.next l = p at h
  induction h generalizing l with
  | nil => exact ⟨l, hp⟩
  | cons hs _ ih => exact ih (Position.step?_eq_some_iff.mp hs).1

/-- The end of a text can be passed. -/
theorem isSome_step?_of_end {l : Lexer} {ts : List Token} {q : Position Lexer}
    (h : Passes (TokenSource.next l) ts q) (hq : q.1.kind = .eof) : q.step?.isSome := by
  obtain ⟨l', rfl⟩ := exists_next_of_passes h
  have hstep : Position.step? (TokenSource.next l') = some (TokenSource.next l') := by
    refine Position.step?_eq_some_iff.mpr ⟨next_of_end hq, ?_⟩
    rw [hq]
    exact nofun
  rw [hstep]
  rfl

end Lexer

namespace Compiler

/-- What a text that compiles comes to: a tree, the end behind it, and the code. -/
structure Accepted (options : Options) (text : String) (t : Tree) (e : Token) (c : Chunk) :
    Prop where
  derives : Derives .expression t
  depth_le : t.depth ≤ options.nestingLimit
  tokens : tokensOf text = t.tokens ++ [e]
  ends : e.kind = .eof
  code : (t.generate? options.shareConstants .empty).map (·.pushOp .ret e.line) = some c

/-- A text compiles to a chunk exactly if it is an expression whose code is that
chunk. -/
theorem compile_result_eq_ok_iff {options : Options} {text : String} {c : Chunk} :
    (compile options text).result = .ok c ↔ ∃ t e, Accepted options text t e c := by
  have htokens {t : Tree} (ht : Derives .expression t) {e : Token} (he : e.kind = .eof) :=
    Lexer.tokens_eq_append_iff (l := .start text)
      (fun u hu => ⟨ht.kind_ne_eof hu, ht.kind_ne_error hu⟩) he
  rw [compile, compileFrom_result_eq_ok_iff]
  constructor
  · rintro ⟨t, q, h⟩
    have hlist := (htokens h.derives h.ends).mpr ⟨q, h.passes, rfl⟩
    exact ⟨t, q.1, h.derives, h.depth_le, hlist, h.ends, h.code⟩
  · rintro ⟨t, e, h⟩
    obtain ⟨q, hpasses, rfl⟩ := (htokens h.derives h.ends).mp h.tokens
    exact ⟨t, q, h.derives, h.depth_le, hpasses, h.ends,
      Lexer.isSome_step?_of_end hpasses h.ends, h.code⟩

namespace Accepted

variable {options : Options} {text : String} {t : Tree} {e : Token} {c : Chunk}

theorem tokens_eq (h : Accepted options text t e c) : t.tokens = tokensBeforeEnd text :=
  ((tokensBeforeEnd_eq_iff fun _ hu => h.derives.kind_ne_eof hu).mpr ⟨e, h.ends, h.tokens⟩).symm

/-- A text that compiles has no errors. -/
theorem kind_ne_error (h : Accepted options text t e c) {u : Token} (hu : u ∈ tokensOf text) :
    u.kind ≠ .error := by
  rw [h.tokens, List.mem_append, List.mem_singleton] at hu
  rcases hu with hu | rfl
  · exact h.derives.kind_ne_error hu
  · rw [h.ends]
    exact nofun

end Accepted

/-- An expression that stands in a text has a value. -/
theorem isSome_value?_of_tokens {text : String} {t : Tree} {e : Token}
    (ht : Derives .expression t) (h : tokensOf text = t.tokens ++ [e]) : t.value?.isSome := by
  refine ht.isSome_value? fun u hu hk => Lexer.isSome_read?_of_mem (l := .start text) ?_ hk
  change u ∈ tokensOf text
  rw [h]
  exact List.mem_append_left _ hu

/-! ## Numbers are never at fault -/

/-- No number is at fault so far, and the next token is not one that will be. -/
structure State.Legible {σ : Type} (s : State σ) : Prop where
  current : s.current.Readable
  problem : ∀ d, s.diagnostic = some d → d.problem ≠ .invalidNumber

namespace State.Legible

variable {σ : Type} {s : State σ} {options : Options}

theorem report (h : s.Legible) (t : Token) {problem : Problem} (hp : problem ≠ .invalidNumber) :
    (s.report t problem).Legible := by
  cases hd : s.diagnostic with
  | some d =>
      rw [State.report, hd]
      exact h
  | none =>
      refine ⟨?_, ?_⟩
      · rw [State.report, hd]
        exact h.current
      · intro d
        rw [diagnostic_report_of_none hd, Option.some.injEq]
        rintro rfl
        exact hp

theorem write (h : s.Legible) (op : Opcode) : (s.write op).Legible := ⟨h.current, h.problem⟩

theorem writeLiteral (h : s.Legible) (v : Value) : (s.writeLiteral options v).Legible := by
  unfold State.writeLiteral
  split
  next => exact ⟨h.current, h.problem⟩
  next =>
    split
    next => exact ⟨h.current, h.problem⟩
    next => exact h.report _ (by decide)

theorem receive [TokenSource σ] (h : s.Legible) {t : Token} (ht : t.Readable) (source : σ) :
    (s.receive options t source).Legible := by
  have htaken : ({ s with source, current := t } : State σ).Legible := ⟨ht, h.problem⟩
  have hnote {s : State σ} (text : String) (h : s.Legible) :
      (s.note ⟨.trace, .lexer, text⟩).Legible := ⟨h.current, h.problem⟩
  exact receive_induction htaken hnote fun h => h.report _ nofun

end State.Legible

section

variable {σ : Type} [TokenSource σ] {options : Options}

theorem State.previous_fetch (s : State σ) : (s.fetch options).previous = s.previous := by
  have hreceive (s : State σ) (t : Token) (source : σ) :
      (s.receive options t source).previous = s.previous := by
    unfold receive report note
    dsimp only
    repeat' split
    all_goals rfl
  fun_induction fetch options s with
  | case1 s step _ ih => rw [ih, hreceive]
  | case2 s step _ => exact hreceive ..

-- What is said of numbers below holds for sources that hand out readable ones.
variable (hsource : ∀ source : σ, (TokenSource.next source).1.Readable)

include hsource

theorem State.Legible.fetch {s : State σ} (h : s.Legible) : (s.fetch options).Legible := by
  fun_induction State.fetch options s with
  | case1 s step _ ih => exact ih (h.receive (hsource s.source) step.2)
  | case2 s step _ => exact h.receive (hsource s.source) step.2

theorem State.Legible.moveOn {s : State σ} (h : s.Legible) : (s.moveOn options).Legible := by
  have hmoved : ({ s with previous := s.current } : State σ).Legible := ⟨h.current, h.problem⟩
  exact hmoved.fetch hsource

theorem State.Legible.expect {s : State σ} (h : s.Legible) (kind : Token.Kind)
    {problem : Problem} (hp : problem ≠ .invalidNumber) :
    (s.expect options kind problem).Legible := by
  unfold State.expect
  split
  next => exact h.moveOn hsource
  next => exact h.report _ hp

section

variable {operand : Precedence → State σ → State σ}
  (hoperand : ∀ {least s}, s.Legible → (operand least s).Legible)

include hoperand

theorem legible_openOperand {s : State σ} (h : s.Legible) (hprevious : s.previous.Readable)
    {opening : Opening} (ho : s.previous.kind.opening? = some opening) :
    (openOperand options operand s opening).Legible := by
  cases opening with
  | number =>
      have hk : s.previous.kind = .number := Tree.opening?_eq_some ho
      obtain ⟨v, hv⟩ := Option.isSome_iff_exists.mp (hprevious hk)
      rw [openOperand, hv]
      exact h.writeLiteral v
  | group => exact (hoperand h).expect hsource _ (by decide)
  | negation => exact (hoperand h).write _

theorem legible_join {least : Precedence} {rounds : Nat} {s : State σ} (h : s.Legible) :
    (join options operand least rounds s).Legible := by
  induction rounds generalizing s with
  | zero => exact h
  | succ rounds ih =>
      rw [join]
      split
      next => exact h
      next o _ =>
        split
        next => exact ih ((hoperand (h.moveOn hsource)).write (.operator o))
        next => exact h

end

theorem legible_parse {rounds room : Nat} {least : Precedence} {s : State σ} (h : s.Legible) :
    (parse options rounds room least s).Legible := by
  induction room generalizing least s with
  | zero => exact h.report _ (by decide)
  | succ room ih =>
      have hmoved : (s.moveOn options).Legible := h.moveOn hsource
      have hprevious : (s.moveOn options).previous.Readable := by
        rw [State.moveOn, State.previous_fetch]
        exact h.current
      rw [parse]
      dsimp only
      split
      next => exact hmoved.report _ (by decide)
      next opening ho =>
        exact legible_join hsource ih (legible_openOperand hsource ih hmoved hprevious ho)

theorem legible_finalState (source : σ) : (finalState options source).Legible := by
  have hinitial : (initial source).Legible := ⟨nofun, nofun⟩
  have hparsed : (parse options (TokenSource.left source) options.nestingLimit .assignment
      ((initial source).moveOn options)).Legible :=
    legible_parse hsource (hinitial.moveOn hsource)
  refine State.Legible.write ?_ .ret
  exact hparsed.expect hsource .eof (by decide)

end

/-! ## Acceptance -/

/-- A text compiles without a problem exactly if no token of it is an error, it
is an expression, that expression is not nested too deeply, and its numbers fit
into the pool.  Numbers themselves are never a problem. -/
theorem diagnostic_compile_eq_none_iff (options : Options) (text : String) :
    ((compile options text).diagnostic = none ↔
      (∀ u ∈ tokensOf text, u.kind ≠ .error) ∧
      ∃ t, Derives .expression t ∧ t.tokens = tokensBeforeEnd text ∧
        t.depth ≤ options.nestingLimit ∧
        (options.shareConstants = false → t.literals.length ≤ 256) ∧
        (options.shareConstants = true → t.values.dedup.length ≤ 256)) ∧
    ∀ d, (compile options text).diagnostic = some d → d.problem ≠ .invalidNumber := by
  refine ⟨⟨fun h => ?_, ?_⟩, ?_⟩
  · have hresult : (compile options text).result = .ok (compile options text).chunk :=
      Compilation.result_eq_ok_iff.mpr ⟨h, rfl⟩
    obtain ⟨t, e, ha⟩ := compile_result_eq_ok_iff.mp hresult
    have hgenerated : (t.generate? options.shareConstants .empty).isSome := by
      rw [← Option.isSome_map, ha.code]
      rfl
    have hfits := (Tree.isSome_generate?_empty_iff
      (isSome_value?_of_tokens ha.derives ha.tokens)).mp hgenerated
    exact ⟨fun u hu => ha.kind_ne_error hu, t, ha.derives, ha.tokens_eq, ha.depth_le, hfits⟩
  · rintro ⟨-, t, ht, htokens, hdepth, hfits⟩
    obtain ⟨e, he, hlist⟩ := (tokensBeforeEnd_eq_iff fun _ hu => ht.kind_ne_eof hu).mp htokens.symm
    obtain ⟨c, hc⟩ := Option.isSome_iff_exists.mp
      ((Tree.isSome_generate?_empty_iff (isSome_value?_of_tokens ht hlist)).mpr hfits)
    have ha : Accepted options text t e (c.pushOp .ret e.line) :=
      ⟨ht, hdepth, hlist, he, by rw [hc]; rfl⟩
    exact (Compilation.result_eq_ok_iff.mp (compile_result_eq_ok_iff.mpr ⟨t, e, ha⟩)).1
  · exact (legible_finalState (fun _ => Lexer.isSome_read?_of_kind) (Lexer.start text)).problem

end Compiler

end Abacus
