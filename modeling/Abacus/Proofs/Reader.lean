import Abacus.Proofs.Grammar
import Abacus.Proofs.Passage

/-!
# Reading trees

`Tree.read` reads a tree by precedence, in the way in which the compiler reads an
expression: an operand by the token that opens it, and then the operators behind
it that bind tightly enough.  It gives the tree and the position behind it, or
nothing if there is no tree.  The arguments `room` and `rounds` bound the levels
and the operators of a level.

The main statement is `Tree.read_eq_some_iff`: with rounds enough for the
source, the reader finds `t` exactly if `t` is a tree of the grammar, stands
there, is not too deep, and is not followed by an operator that would belong to
it.  One direction is an induction over the levels and rounds of the reader, the
other one over the derivation of the tree.  Since a function has one result, the
grammar gives at most one tree for a sequence of tokens (`Derives.unique`).
-/

namespace Abacus

/-! ## Precedence and the grammar -/

namespace Precedence

theorem le_trans {a b c : Precedence} (hab : a ≤ b) (hbc : b ≤ c) : a ≤ c :=
  Nat.le_trans hab hbc

/-- What is read at a level. -/
def category : Precedence → Category
  | .factor => .term
  | .unary | .call | .primary => .unary
  | _ => .expression

end Precedence

/-- Right operands are read one level above their operator. -/
theorem Operator.rank_next (o : Operator) :
    o.precedence.next.rank = o.precedence.rank + 1 := by
  cases o <;> rfl

/-- No operator binds as tightly as a negation. -/
theorem Operator.precedence_lt_unary (o : Operator) :
    o.precedence.rank < Precedence.unary.rank := by
  cases o <;> decide

/-- The token is an operator of the given level or a tighter one. -/
def Token.Kind.Binds (least : Precedence) (k : Token.Kind) : Prop :=
  ∃ o, k.operator? = some o ∧ least ≤ o.precedence

theorem Token.Kind.ne_eof_of_operator?_eq_some {k : Token.Kind} {o : Operator}
    (h : k.operator? = some o) : k ≠ .eof := by
  rintro rfl
  cases h

theorem Token.Kind.not_binds_of_operator?_eq_none {least : Precedence} {k : Token.Kind}
    (h : k.operator? = none) : ¬ k.Binds least := by
  rintro ⟨o, ho, -⟩
  cases h.symm.trans ho

theorem Token.Kind.not_binds_of_operator?_eq_some {least : Precedence} {k : Token.Kind}
    {o : Operator} (h : k.operator? = some o) (hl : ¬ least ≤ o.precedence) :
    ¬ k.Binds least := by
  rintro ⟨o', ho', hl'⟩
  cases h.symm.trans ho'
  exact hl hl'

namespace Category

/-- The loosest operators that join the trees of a category. -/
def precedence : Category → Precedence
  | .expression => .term
  | .term => .factor
  | .unary => .primary
  | .primary => .primary

end Category

namespace Derives

theorem of_unary {c : Category} (hc : c ≠ .primary) {t : Tree} (h : Derives .unary t) :
    Derives c t := by
  cases c with
  | expression => exact .term (.unary h)
  | term => exact .unary h
  | unary => exact h
  | primary => exact absurd rfl hc

/-- What is read at a level is also read at a looser one. -/
theorem mono {a b : Precedence} (hab : a ≤ b) {t : Tree} (h : Derives b.category t) :
    Derives a.category t := by
  have ha : a.category ≠ .primary := by cases a <;> decide
  cases hb : b.category with
  | primary => cases b <;> cases hb
  | unary =>
      rw [hb] at h
      exact h.of_unary ha
  | term =>
      have hbf : b = .factor := by cases b <;> first | rfl | cases hb
      subst hbf
      cases a with
      | unary => exact absurd hab (by decide)
      | call => exact absurd hab (by decide)
      | primary => exact absurd hab (by decide)
      | factor => exact h
      | _ => exact .term h
  | expression =>
      have hae : a.category = .expression := by
        have hb' : b ≤ .term := by cases b <;> first | decide | cases hb
        have ha' := Precedence.le_trans hab hb'
        cases a <;> first | rfl | exact absurd ha' (by decide)
      rw [hae]
      rw [hb] at h
      exact h

end Derives

/-! ## The reader -/

namespace Tree

variable {σ : Type} [TokenSource σ]

/-- The operand that the token `t` opens.  Operands inside it are read by
`operand`. -/
def readOpening (operand : Precedence → Position σ → Option (Tree × Position σ)) (t : Token)
    (p : Position σ) : Opening → Option (Tree × Position σ)
  | .number => some (.number t, p)
  | .group =>
      (operand .assignment p).bind fun (e, q) =>
        if q.1.kind = .rightParen then q.step?.map fun q' => (.group t e q.1, q') else none
  | .negation => (operand .unary p).map fun (e, q) => (.negation t e, q)

/-- Join a tree with the operators that follow it. -/
def readJoin (operand : Precedence → Position σ → Option (Tree × Position σ))
    (least : Precedence) : Nat → Tree → Position σ → Option (Tree × Position σ)
  | 0, l, p => some (l, p)
  | rounds + 1, l, p =>
      match p.1.kind.operator? with
      | none => some (l, p)
      | some o =>
          if least ≤ o.precedence then
            p.step?.bind fun q =>
              (operand o.precedence.next q).bind fun (r, q') =>
                readJoin operand least rounds (.binary l p.1 r) q'
          else some (l, p)

/-- The tree at a position, and the position behind it. -/
def read (rounds : Nat) : Nat → Precedence → Position σ → Option (Tree × Position σ)
  | 0, _, _ => none
  | room + 1, least, p =>
      p.step?.bind fun q =>
        p.1.kind.opening?.bind fun opening =>
          (readOpening (read rounds room) p.1 q opening).bind fun (e, q') =>
            readJoin (read rounds room) least rounds e q'

theorem readJoin_of_not_binds {operand : Precedence → Position σ → Option (Tree × Position σ)}
    {least : Precedence} {l : Tree} {p : Position σ} (h : ¬ p.1.kind.Binds least)
    (rounds : Nat) : readJoin operand least rounds l p = some (l, p) := by
  cases rounds with
  | zero => rfl
  | succ rounds =>
      rw [readJoin]
      split
      next => rfl
      next o ho => exact if_neg fun hl => h ⟨o, ho, hl⟩

theorem readJoin_of_binds {operand : Precedence → Position σ → Option (Tree × Position σ)}
    {least : Precedence} {l : Tree} {p : Position σ} {o : Operator}
    (ho : p.1.kind.operator? = some o) (hl : least ≤ o.precedence) (rounds : Nat) :
    readJoin operand least (rounds + 1) l p =
      p.step?.bind fun q =>
        (operand o.precedence.next q).bind fun (r, q') =>
          readJoin operand least rounds (.binary l p.1 r) q' := by
  simp only [readJoin, ho]
  exact if_pos hl

/-! ## What is read is a tree of the grammar -/

/-- `t` stands between two positions, as a tree that is read whole at a level. -/
structure Stands (room : Nat) (least : Precedence) (p : Position σ) (t : Tree)
    (q : Position σ) : Prop where
  derives : Derives least.category t
  depth_le : t.depth ≤ room
  passes : Passes p t.tokens q
  stops : ¬ q.1.kind.Binds least

theorem opening?_eq_some {k : Token.Kind} {opening : Opening} (h : k.opening? = some opening) :
    k = match opening with
      | .number => .number
      | .group => .leftParen
      | .negation => .minus := by
  cases k <;> cases h <;> rfl

theorem operator?_eq_some {k : Token.Kind} {o : Operator} (h : k.operator? = some o) :
    k = match o with
      | .add => .plus
      | .subtract => .minus
      | .multiply => .star
      | .divide => .slash := by
  cases k <;> cases h <;> rfl

/-- A tree joined with a tree on its right is a tree of the operator's level. -/
theorem derives_binary {o : Operator} {l r : Tree} {t : Token}
    (ho : t.kind.operator? = some o) (hl : Derives o.precedence.category l)
    (hr : Derives o.precedence.next.category r) :
    Derives o.precedence.category (.binary l t r) := by
  have hk := operator?_eq_some ho
  cases o with
  | add => exact .sum hl (.inl hk) hr
  | subtract => exact .sum hl (.inr hk) hr
  | multiply => exact .product hl (.inl hk) hr
  | divide => exact .product hl (.inr hk) hr

section Sound

variable {rounds room : Nat} {operand : Precedence → Position σ → Option (Tree × Position σ)}
  (sound : ∀ {least p t q}, Enough rounds p → operand least p = some (t, q) →
    Stands room least p t q)

include sound

theorem readOpening_sound {p q q' : Position σ} {opening : Opening} {e : Tree}
    (hn : Enough rounds p) (hs : p.step? = some q) (ho : p.1.kind.opening? = some opening)
    (h : readOpening operand p.1 q opening = some (e, q')) :
    Derives .unary e ∧ e.depth ≤ room + 1 ∧ Passes p e.tokens q' := by
  have hk := opening?_eq_some ho
  have hq : Enough rounds q := Enough.of_step hn.left_le hs
  cases opening with
  | number =>
      cases h
      exact ⟨.primary (.number hk), Nat.le_add_left 1 room, Passes.singleton_iff.mpr ⟨rfl, hs⟩⟩
  | group =>
      obtain ⟨⟨i, m⟩, hi, h⟩ := Option.bind_eq_some_iff.mp h
      have inner := sound hq hi
      dsimp only at h
      split at h
      next hr =>
        obtain ⟨m', hm, h⟩ := Option.map_eq_some_iff.mp h
        cases h
        refine ⟨.primary (.group hk inner.derives hr), ?_, ?_⟩
        · have := inner.depth_le
          simp only [depth]
          omega
        · refine Passes.cons hs (Passes.append_iff.mpr ⟨m, inner.passes, ?_⟩)
          exact Passes.singleton_iff.mpr ⟨rfl, hm⟩
      next => cases h
  | negation =>
      obtain ⟨⟨i, m⟩, hi, h⟩ := Option.map_eq_some_iff.mp h
      cases h
      have inner := sound hq hi
      refine ⟨.negation hk inner.derives, ?_, .cons hs inner.passes⟩
      have := inner.depth_le
      simp only [depth]
      omega

/-- The loop keeps the tree read so far fit for the operator to come: behind a
right operand there stands no operator that binds tighter than the last one. -/
theorem readJoin_sound {least : Precedence} {p m q : Position σ} {l t : Tree} {n : Nat}
    (hp : Enough rounds p) (hm : Enough n m) (hpass : Passes p l.tokens m)
    (hdepth : l.depth ≤ room + 1) (hleast : Derives least.category l)
    (hfit : ∀ o, m.1.kind.operator? = some o → Derives o.precedence.category l)
    (h : readJoin operand least n l m = some (t, q)) : Stands (room + 1) least p t q := by
  induction n generalizing l m with
  | zero =>
      have hend : m.1.kind = .eof :=
        Decidable.byContradiction fun hk => absurd (hm.left_lt hk) (Nat.not_lt_zero _)
      cases h
      refine ⟨hleast, hdepth, hpass, ?_⟩
      rw [hend]
      exact Token.Kind.not_binds_of_operator?_eq_none rfl
  | succ n ih =>
      rw [readJoin] at h
      split at h
      next ho =>
        cases h
        exact ⟨hleast, hdepth, hpass, Token.Kind.not_binds_of_operator?_eq_none ho⟩
      next o ho =>
        split at h
        next hl =>
          obtain ⟨m', hm', h⟩ := Option.bind_eq_some_iff.mp h
          obtain ⟨⟨r, m''⟩, hr, h⟩ := Option.bind_eq_some_iff.mp h
          have right := sound (Enough.of_step (hp.passes hpass).left_le hm') hr
          have hround : Passes m (m.1 :: r.tokens) m'' := .cons hm' right.passes
          have hk : m.1.kind ≠ .eof := Token.Kind.ne_eof_of_operator?_eq_some ho
          have joined := derives_binary ho (hfit o ho) right.derives
          have hjoined : Passes p (Tree.binary l m.1 r).tokens m'' :=
            Passes.append_iff.mpr ⟨m, hpass, hround⟩
          refine ih (hm.pred hk hround) hjoined ?_ (joined.mono hl) ?_ h
          · have := right.depth_le
            simp only [depth]
            omega
          · intro o' ho'
            -- an operator above `o` would have been read with the right operand
            refine joined.mono (Nat.le_of_not_lt fun hlt => right.stops ⟨o', ho', ?_⟩)
            change o.precedence.next.rank ≤ o'.precedence.rank
            rw [o.rank_next]
            exact hlt
        next hl =>
          cases h
          exact ⟨hleast, hdepth, hpass, Token.Kind.not_binds_of_operator?_eq_some ho hl⟩

end Sound

theorem read_sound {rounds room : Nat} {least : Precedence} {p q : Position σ} {t : Tree}
    (hn : Enough rounds p) (h : read rounds room least p = some (t, q)) :
    Stands room least p t q := by
  induction room generalizing least p q t with
  | zero => cases h
  | succ room ih =>
      obtain ⟨m, hm, h⟩ := Option.bind_eq_some_iff.mp h
      obtain ⟨opening, ho, h⟩ := Option.bind_eq_some_iff.mp h
      obtain ⟨⟨e, m'⟩, he, h⟩ := Option.bind_eq_some_iff.mp h
      obtain ⟨hunary, hdepth, hpass⟩ := readOpening_sound ih hn hm ho he
      refine readJoin_sound ih hn (hn.passes hpass) hpass hdepth ?_ ?_ h
      · exact hunary.of_unary (by cases least <;> decide)
      · intro o _
        exact hunary.of_unary (by cases o <;> decide)

/-! ## Every tree of the grammar is read -/

/-- Operators behind a tree of a category that leave the tree as it is. -/
def Leaves (c : Category) (k : Token.Kind) : Prop :=
  ∀ o, k.operator? = some o → o.precedence ≤ c.precedence

/-- Reading where `t` stands comes to the loop with `t` read.  The loop may go on
from there: `t` may be the left part of a larger tree, whose operators are read
by the same loop. -/
def Reached (σ : Type) [TokenSource σ] (c : Category) (t : Tree) : Prop :=
  ∀ ⦃rounds room : Nat⦄ ⦃least : Precedence⦄ ⦃p q : Position σ⦄,
    Enough rounds p → t.depth ≤ room + 1 → Passes p t.tokens q → least ≤ c.precedence →
    Leaves c q.1.kind →
    ∃ n, Enough n q ∧
      read rounds (room + 1) least p = readJoin (read rounds room) least n t q

/-- A tree that is reached is read whole where nothing behind it belongs to it. -/
theorem Reached.read {c : Category} {t : Tree} (h : Reached σ c t) {rounds room : Nat}
    {least : Precedence} {p q : Position σ} (hn : Enough rounds p)
    (hdepth : t.depth ≤ room + 1) (hpass : Passes p t.tokens q)
    (hleast : least ≤ c.precedence) (hstop : ¬ q.1.kind.Binds least) :
    Tree.read rounds (room + 1) least p = some (t, q) := by
  have hq : Leaves c q.1.kind := fun o ho => Nat.le_of_not_lt fun hlt =>
    hstop ⟨o, ho, Precedence.le_trans hleast (Nat.le_of_lt hlt)⟩
  obtain ⟨n, -, hread⟩ := h hn hdepth hpass hleast hq
  rw [hread, readJoin_of_not_binds hstop]

/-- A tree that is not too deep leaves room for what stands inside it. -/
theorem exists_room {e : Tree} {room : Nat} (h : 1 + e.depth ≤ room + 1) :
    ∃ n, room = n + 1 ∧ e.depth ≤ n + 1 := by
  have := e.depth_pos
  obtain ⟨n, rfl⟩ : ∃ n, room = n + 1 := Nat.exists_eq_add_one.mpr (by omega)
  exact ⟨n, rfl, by omega⟩

theorem reached_number {t : Token} (hk : t.kind = .number) :
    Reached σ .primary (.number t) := by
  intro rounds room least p q hn _ hpass _ _
  obtain ⟨rfl, hs⟩ := Passes.singleton_iff.mp hpass
  refine ⟨rounds, hn.passes hpass, ?_⟩
  simp only [Tree.read, hs, hk, Token.Kind.opening?, readOpening, Option.bind_some]

theorem reached_group {l r : Token} {e : Tree} (hl : l.kind = .leftParen)
    (h : Reached σ .expression e) (hr : r.kind = .rightParen) :
    Reached σ .primary (.group l e r) := by
  intro rounds room least p q hn hdepth hpass _ _
  obtain ⟨rfl, p₁, hs, hrest⟩ := Passes.cons_iff.mp hpass
  obtain ⟨p₂, hinner, hclose⟩ := Passes.append_iff.mp hrest
  obtain ⟨rfl, hs'⟩ := Passes.singleton_iff.mp hclose
  obtain ⟨room, rfl, hroom⟩ := exists_room hdepth
  have hstop : ¬ p₂.1.kind.Binds .assignment := by
    rw [hr]
    exact Token.Kind.not_binds_of_operator?_eq_none rfl
  have hread := h.read (.of_step hn.left_le hs) hroom hinner (by decide) hstop
  refine ⟨rounds, hn.passes hpass, ?_⟩
  rw [Tree.read, hs, hl]
  simp only [Token.Kind.opening?, readOpening, hread, Option.bind_some, if_pos hr, hs',
    Option.map_some]

theorem reached_negation {m : Token} {e : Tree} (hm : m.kind = .minus)
    (h : Reached σ .unary e) : Reached σ .unary (.negation m e) := by
  intro rounds room least p q hn hdepth hpass _ _
  obtain ⟨rfl, p₁, hs, hinner⟩ := Passes.cons_iff.mp hpass
  obtain ⟨room, rfl, hroom⟩ := exists_room hdepth
  have hstop : ¬ q.1.kind.Binds .unary := by
    rintro ⟨o, -, ho⟩
    exact absurd ho (Nat.not_le_of_lt o.precedence_lt_unary)
  have hread := h.read (.of_step hn.left_le hs) hroom hinner (by decide) hstop
  refine ⟨rounds, hn.passes hpass, ?_⟩
  rw [Tree.read, hs, hm]
  simp only [Token.Kind.opening?, readOpening, hread, Option.bind_some, Option.map_some]

/-- One round of the loop.  The right operand is read whole: what stands behind
the two operands binds no tighter than the operator between them. -/
theorem reached_binary {o : Operator} {l r : Tree} {t : Token}
    (hl : Reached σ o.precedence.category l) (ho : t.kind.operator? = some o)
    (hr : Reached σ o.precedence.next.category r) :
    Reached σ o.precedence.category (.binary l t r) := by
  intro rounds room least p q hn hdepth hpass hleast hq
  have hcat : o.precedence.category.precedence = o.precedence := by cases o <;> rfl
  rw [hcat] at hleast
  obtain ⟨m, hleft, hrest⟩ := Passes.append_iff.mp hpass
  obtain ⟨rfl, m', hs, hright⟩ := Passes.cons_iff.mp hrest
  obtain ⟨room, rfl, hroom⟩ := exists_room (Nat.le_trans (Nat.le_max_right _ _) hdepth)
  obtain ⟨n, hm, hread⟩ := hl hn (Nat.le_trans (Nat.le_max_left _ _) hdepth) hleft
    (hcat.symm ▸ hleast) (fun o' ho' => by cases ho.symm.trans ho'; rw [hcat]; exact Nat.le_refl _)
  have hstop : ¬ q.1.kind.Binds o.precedence.next := by
    rintro ⟨o', ho', hle⟩
    have hle' : o'.precedence.rank ≤ o.precedence.rank := hcat ▸ hq o' ho'
    change o.precedence.next.rank ≤ o'.precedence.rank at hle
    rw [o.rank_next] at hle
    omega
  have hoperand := hr.read (.of_step (hn.passes hleft).left_le hs) hroom hright
    (by cases o <;> decide) hstop
  have hk : m.1.kind ≠ .eof := Token.Kind.ne_eof_of_operator?_eq_some ho
  obtain ⟨n, rfl⟩ := hm.exists_succ hk
  refine ⟨n, hm.pred hk (.cons hs hright), ?_⟩
  rw [hread, readJoin_of_binds ho hleast]
  simp only [hs, hoperand, Option.bind_some]

/-- A tree of one category is reached as one of a looser category. -/
theorem Reached.widen {c c' : Category} {t : Tree} (h : Reached σ c t)
    (hc : c'.precedence ≤ c.precedence) : Reached σ c' t := by
  intro rounds room least p q hn hdepth hpass hleast hq
  exact h hn hdepth hpass (Precedence.le_trans hleast hc)
    fun o ho => Precedence.le_trans (hq o ho) hc

/-- Every tree of the grammar is reached. -/
theorem reached_of_derives {c : Category} {t : Tree} (h : Derives c t) : Reached σ c t := by
  induction h with
  | number hk => exact reached_number hk
  | group hl _ hr ih => exact reached_group hl ih hr
  | primary _ ih => exact ih.widen (by decide)
  | negation hm _ ih => exact reached_negation hm ih
  | unary _ ih => exact ih.widen (by decide)
  | product _ ho _ ihl ihr =>
      rcases ho with ho | ho
      · exact reached_binary (o := .multiply) ihl (by rw [ho]; rfl) ihr
      · exact reached_binary (o := .divide) ihl (by rw [ho]; rfl) ihr
  | term _ ih => exact ih.widen (by decide)
  | sum _ ho _ ihl ihr =>
      rcases ho with ho | ho
      · exact reached_binary (o := .add) ihl (by rw [ho]; rfl) ihr
      · exact reached_binary (o := .subtract) ihl (by rw [ho]; rfl) ihr

theorem read_complete {rounds room : Nat} {least : Precedence} {p q : Position σ} {t : Tree}
    (hn : Enough rounds p) (h : Stands room least p t q) :
    read rounds room least p = some (t, q) := by
  obtain ⟨room, rfl⟩ : ∃ n, room = n + 1 :=
    Nat.exists_eq_add_one.mpr (Nat.lt_of_lt_of_le t.depth_pos h.depth_le)
  have hle : least ≤ least.category.precedence := by cases least <;> decide
  exact (reached_of_derives h.derives).read hn h.depth_le h.passes hle h.stops

/-- The reader finds exactly the tree that stands at a position. -/
theorem read_eq_some_iff {rounds room : Nat} {least : Precedence} {p q : Position σ} {t : Tree}
    (hn : Enough rounds p) :
    read rounds room least p = some (t, q) ↔ Stands room least p t q :=
  ⟨read_sound hn, read_complete hn⟩

end Tree

/-! ## One tree for a sequence of tokens -/

/-- A list without errors, handed out in order and followed by an end, is passed
from its first token to that end. -/
theorem Replay.passes {ts : List Token} (h : ∀ t ∈ ts, t.kind ≠ .error) (line : UInt32) :
    ∃ q, Passes (TokenSource.next (⟨ts, line⟩ : Replay)) ts q ∧ q.1.kind = .eof := by
  induction ts generalizing line with
  | nil => exact ⟨_, .nil _, rfl⟩
  | cons t ts ih =>
      have hnext : ∀ line, (TokenSource.next (⟨ts, line⟩ : Replay)).1.kind ≠ .error := by
        intro line
        cases ts with
        | nil => exact fun hk => nomatch hk
        | cons u us => exact h u (List.mem_cons_of_mem _ (List.mem_cons_self ..))
      obtain ⟨q, hq, hk⟩ := ih (fun u hu => h u (List.mem_cons_of_mem _ hu)) t.line
      refine ⟨q, .cons (Position.step?_eq_some_iff.mpr ⟨rfl, hnext t.line⟩) hq, hk⟩

/-- The grammar is unambiguous. -/
theorem Derives.unique {t t' : Tree} (h : Derives .expression t) (h' : Derives .expression t')
    (heq : t.tokens = t'.tokens) : t = t' := by
  let source : Replay := ⟨t.tokens, 1⟩
  have hn := Enough.next source
  obtain ⟨q, hpass, hk⟩ := Replay.passes (fun _ => h.kind_ne_error) 1
  have stops : ¬ q.1.kind.Binds .assignment := by
    rw [hk]
    exact Token.Kind.not_binds_of_operator?_eq_none rfl
  have one : Tree.Stands (max t.depth t'.depth) .assignment (TokenSource.next source) t q :=
    ⟨h, Nat.le_max_left _ _, hpass, stops⟩
  have other : Tree.Stands (max t.depth t'.depth) .assignment (TokenSource.next source) t' q :=
    ⟨h', Nat.le_max_right _ _, heq ▸ hpass, stops⟩
  have hread := (Tree.read_complete hn one).symm.trans (Tree.read_complete hn other)
  cases hread
  rfl

end Abacus
