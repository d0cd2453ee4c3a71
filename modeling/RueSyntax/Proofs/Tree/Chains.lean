import RueSyntax.Proofs.Tree.RoundTrip

/-!
# Chains of operators

A tree of binary expressions says in which order its operators are to be applied; its chain is what
is left when that order is forgotten: operands, and an operator between each two.  From a chain the
tree is built again from the top: the last of the operators that bind least is the root, and what
stands on its two sides is built in the same way (`Node.group`).  How much an operator binds is the
rank that the grammar gives it.  A tree whose operators group by rank and to the left is the one that
is built from its chain (`Node.group_chain`).
-/

namespace RueSyntax

/-- An operator and the operand behind it. -/
structure Link (α : Type) where
  operator : Operator
  sign : α
  operand : Node α

variable {α : Type}

namespace Link

/-- The last of the operators that bind least, between what is before it and what is behind. -/
def split : List (Link α) → Option (List (Link α) × Link α × List (Link α))
  | [] => none
  | p :: ps =>
    match split ps with
    | none => some ([], p, [])
    | some (before, q, after) =>
      if p.operator.rank < q.operator.rank then some ([], p, ps) else some (p :: before, q, after)

theorem split_eq_none {ps : List (Link α)} : split ps = none ↔ ps = [] := by
  cases ps with
  | nil => exact ⟨fun _ => rfl, fun _ => rfl⟩
  | cons p ps =>
    have hsome : split (p :: ps) ≠ none := by
      unfold split
      split
      · nofun
      · split <;> nofun
    exact ⟨fun h => (hsome h).elim, nofun⟩

theorem of_split_eq_some {ps before after : List (Link α)} {q : Link α}
    (h : split ps = some (before, q, after)) :
    ps = before ++ q :: after ∧ (∀ p ∈ before, q.operator.rank ≤ p.operator.rank) ∧
      ∀ p ∈ after, q.operator.rank < p.operator.rank := by
  induction ps generalizing before q after with
  | nil => cases h
  | cons p ps ih =>
    rw [split] at h
    cases hps : split ps with
    | none =>
      rw [hps] at h
      cases h
      obtain rfl := split_eq_none.mp hps
      exact ⟨rfl, nofun, nofun⟩
    | some x =>
      obtain ⟨before', q', after'⟩ := x
      obtain ⟨rfl, hbefore, hafter⟩ := ih hps
      rw [hps] at h
      by_cases hp : p.operator.rank < q'.operator.rank
      · -- everything behind `p` binds at least as tightly as `q'`
        simp only [if_pos hp] at h
        cases h
        refine ⟨rfl, nofun, fun x hx => ?_⟩
        rcases List.mem_append.mp hx with hx | hx
        · exact Int.lt_of_lt_of_le hp (hbefore x hx)
        · rcases List.mem_cons.mp hx with rfl | hx
          · exact hp
          · exact Int.lt_trans hp (hafter x hx)
      · simp only [if_neg hp] at h
        cases h
        exact ⟨rfl, List.forall_mem_cons.mpr ⟨Int.not_lt.mp hp, hbefore⟩, hafter⟩

theorem split_append {before after : List (Link α)} {q : Link α}
    (hbefore : ∀ p ∈ before, q.operator.rank ≤ p.operator.rank)
    (hafter : ∀ p ∈ after, q.operator.rank < p.operator.rank) :
    split (before ++ q :: after) = some (before, q, after) := by
  induction before with
  | nil =>
    rw [List.nil_append, split]
    cases h : split after with
    | none => rw [split_eq_none.mp h]
    | some x =>
      obtain ⟨before', q', after'⟩ := x
      have hq : q.operator.rank < q'.operator.rank :=
        hafter q' (by rw [(of_split_eq_some h).1]; simp)
      exact if_pos hq
  | cons p before ih =>
    obtain ⟨hp, hbefore⟩ := List.forall_mem_cons.mp hbefore
    rw [List.cons_append, split, ih hbefore]
    exact if_neg (Int.not_lt.mpr hp)

/-- What `split` finds is the last operator of the lowest rank. -/
theorem split_eq_some_iff {ps before after : List (Link α)} {q : Link α} :
    split ps = some (before, q, after) ↔ ps = before ++ q :: after ∧
      (∀ p ∈ before, q.operator.rank ≤ p.operator.rank) ∧
      ∀ p ∈ after, q.operator.rank < p.operator.rank := by
  constructor
  · exact of_split_eq_some
  · rintro ⟨rfl, hbefore, hafter⟩
    exact split_append hbefore hafter

end Link

namespace Node

/-- The operands of a binary expression, the first by itself and each other one with the operator
in front of it; any other node is a single operand. -/
def chain : Node α → Node α × List (Link α)
  | rule _ .binaryExpression [l, token _ (.operator o) a, r] =>
    (l.chain.1, l.chain.2 ++ ⟨o, a, r.chain.1⟩ :: r.chain.2)
  | n => (n, [])

/-- The node in another place of its parent. -/
def withField (f : Option Field) : Node α → Node α
  | token _ t a => token f t a
  | rule _ r ns => rule f r ns

theorem withField_field (n : Node α) : n.withField n.field = n := by
  cases n <;> rfl

/-- The tree of a chain, from the top. -/
def group (f : Option Field) (e : Node α) (ps : List (Link α)) : Node α :=
  match _ : Link.split ps with
  | none => e.withField f
  | some (before, q, after) =>
    rule f .binaryExpression [group (some .left) e before,
      token (some .operator) (.operator q.operator) q.sign, group (some .right) q.operand after]
termination_by ps.length
decreasing_by
  all_goals
    have hlength := congrArg List.length (Link.split_eq_some_iff.mp ‹_›).1
    simp only [List.length_append, List.length_cons] at hlength
    omega

theorem group_nil (f : Option Field) (e : Node α) : group f e [] = e.withField f := by
  unfold group
  rfl

theorem group_append {before after : List (Link α)} {q : Link α} (f : Option Field) (e : Node α)
    (hbefore : ∀ p ∈ before, q.operator.rank ≤ p.operator.rank)
    (hafter : ∀ p ∈ after, q.operator.rank < p.operator.rank) :
    group f e (before ++ q :: after) =
      rule f .binaryExpression [group (some .left) e before,
        token (some .operator) (.operator q.operator) q.sign,
        group (some .right) q.operand after] := by
  have hsplit := Link.split_eq_some_iff.mpr ⟨rfl, hbefore, hafter⟩
  rw [group]
  split
  · next h =>
    rw [hsplit] at h
    cases h
  · next h =>
    rw [hsplit] at h
    cases h
    rfl

/-- A binary expression has two operands and an operator between them. -/
def Shaped : Node α → Prop
  | rule _ .binaryExpression ns =>
    ∃ l o a r, ns = [l, token (some .operator) (.operator o) a, r] ∧
      l.field = some .left ∧ r.field = some .right
  | _ => True

theorem chain_of_kind {n : Node α} (h : n.kind ≠ .rule .binaryExpression) : n.chain = (n, []) := by
  unfold chain
  split
  · exact (h rfl).elim
  · rfl

/-- The operands of a chain. -/
def operands (n : Node α) : List (Node α) := n.chain.1 :: n.chain.2.map Link.operand

theorem operands_of_kind {n : Node α} (h : n.kind ≠ .rule .binaryExpression) :
    n.operands = [n] := by
  rw [operands, chain_of_kind h]
  rfl

theorem operands_binary (f g : Option Field) (l r : Node α) (o : Operator) (a : α) :
    (rule f .binaryExpression [l, token g (.operator o) a, r]).operands =
      l.operands ++ r.operands := by
  simp [operands, chain]

/-- Every binary expression in the node is one, and its operators group. -/
abbrev Ranked (n : Node α) : Prop := n.Every fun n => n.Shaped ∧ n.Grouped

/-- What holds of all nodes that are no binary expressions, and of those whenever it holds of their
operands. -/
theorem Ranked.induction {P : Node α → Prop} {n : Node α} (h : n.Ranked)
    (operand : ∀ n, n.kind ≠ .rule .binaryExpression → P n)
    (binary : ∀ f l o a r, l.field = some .left → r.field = some .right → l.Ranked → r.Ranked →
      (∀ m ∈ l.rank?, o.rank ≤ m) → (∀ m ∈ r.rank?, o.rank < m) → P l → P r →
        P (rule f .binaryExpression [l, token (some .operator) (.operator o) a, r])) : P n := by
  induction h with
  | token => exact operand _ nofun
  | @rule f r ns hn hs ih =>
    by_cases hr : r = .binaryExpression
    · subst hr
      obtain ⟨⟨l, o, a, r, rfl, hl, hr⟩, hleft, hright⟩ := hn
      have hmem : l ∈ [l, token (some .operator) (.operator o) a, r] := by simp
      have hmem' : r ∈ [l, token (some .operator) (.operator o) a, r] := by simp
      exact binary f l o a r hl hr (hs l hmem) (hs r hmem') hleft hright (ih l hmem) (ih r hmem')
    · exact operand _ fun hk => hr (by cases hk; rfl)

/-- No operator of a chain binds less than the root of its tree. -/
theorem Ranked.rank_of_chain {n : Node α} (h : n.Ranked) :
    ∀ p ∈ n.chain.2, ∃ m ∈ n.rank?, m ≤ p.operator.rank := by
  refine h.induction (P := fun n => ∀ p ∈ n.chain.2, ∃ m ∈ n.rank?, m ≤ p.operator.rank)
    (fun n hn => ?_) fun f l o a r _ _ _ _ hleft hright ihl ihr p hp => ?_
  · rw [chain_of_kind hn]
    nofun
  · refine ⟨o.rank, rfl, ?_⟩
    rcases List.mem_append.mp hp with hp | hp
    · obtain ⟨m, hm, hle⟩ := ihl p hp
      exact Int.le_trans (hleft m hm) hle
    · rcases List.mem_cons.mp hp with rfl | hp
      · exact Int.le_refl _
      · obtain ⟨m, hm, hle⟩ := ihr p hp
        exact Int.le_trans (Int.le_of_lt (hright m hm)) hle

/-- A tree is built again from its chain. -/
theorem Ranked.group_chain {n : Node α} (h : n.Ranked) :
    group n.field n.chain.1 n.chain.2 = n := by
  refine h.induction (P := fun n => group n.field n.chain.1 n.chain.2 = n)
    (fun n hn => ?_) fun f l o a r hl hr hls hrs hleft hright ihl ihr => ?_
  · rw [chain_of_kind hn, group_nil, withField_field]
  · have hbefore : ∀ p ∈ l.chain.2, o.rank ≤ p.operator.rank := by
      intro p hp
      obtain ⟨m, hm, hle⟩ := hls.rank_of_chain p hp
      exact Int.le_trans (hleft m hm) hle
    have hafter : ∀ p ∈ r.chain.2, o.rank < p.operator.rank := by
      intro p hp
      obtain ⟨m, hm, hle⟩ := hrs.rank_of_chain p hp
      exact Int.lt_of_lt_of_le (hright m hm) hle
    rw [hl] at ihl
    rw [hr] at ihr
    calc group f l.chain.1 (l.chain.2 ++ ⟨o, a, r.chain.1⟩ :: r.chain.2)
        = rule f .binaryExpression [group (some .left) l.chain.1 l.chain.2,
            token (some .operator) (.operator o) a,
            group (some .right) r.chain.1 r.chain.2] := group_append f l.chain.1 hbefore hafter
      _ = rule f .binaryExpression [l, token (some .operator) (.operator o) a, r] := by
        rw [ihl, ihr]

theorem Ranked.kind_of_operands {n : Node α} (h : n.Ranked) :
    ∀ e ∈ n.operands, e.kind ≠ .rule .binaryExpression := by
  refine h.induction (P := fun n => ∀ e ∈ n.operands, e.kind ≠ .rule .binaryExpression)
    (fun n hn => ?_) fun f l o a r _ _ _ _ _ _ ihl ihr => ?_
  · rw [operands_of_kind hn]
    exact List.forall_mem_singleton.mpr hn
  · rw [operands_binary]
    exact List.forall_mem_append.mpr ⟨ihl, ihr⟩

end Node

end RueSyntax
