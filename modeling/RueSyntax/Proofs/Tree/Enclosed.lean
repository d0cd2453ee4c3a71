import RueSyntax.Proofs.Grammar.Expressions
import RueSyntax.Proofs.Tree.Replacement

/-!
# A node between parentheses

`Node.enclosed` puts an expression between parentheses.  In the place of the expression the grammar
takes what comes of it, because it takes any expression there; the operators around it group as they
did, because it has no operator at its top; and nothing there is read as a keyword, because it
begins with a mark (`Node.enclosed_wellFormed`).
-/

namespace RueSyntax

open Grammar (rue)

variable {α β : Type}

namespace Node

/-- The node between parentheses, in the same field. -/
def enclosed (opening closing : α) (n : Node α) : Node α :=
  rule n.field .parenthesizedExpression [token none (.mark .openParen) opening, n.withField none,
    token none (.mark .closeParen) closing]

theorem enclosed_mapTokens (f : Terminal → α → β) (a b : α) (n : Node α) :
    (n.enclosed a b).mapTokens f =
      (n.mapTokens f).enclosed (f (.mark .openParen) a) (f (.mark .closeParen) b) := by
  cases n <;> rfl

/-- What does not ask for the field of a node holds in every field. -/
theorem Every.withField {P : Node α → Prop} {n : Node α} (h : n.Every P) {f : Option Field}
    (hf : P (n.withField f)) : (n.withField f).Every P := by
  cases h with
  | token h => exact .token hf
  | rule h hs => exact .rule hf hs

theorem every_enclosed {P : Node α → Prop} {a b : α} {n : Node α}
    (ha : P (token none (.mark .openParen) a)) (hb : P (token none (.mark .closeParen) b))
    (hn : n.Every P) (hf : P (n.withField none)) (h : P (n.enclosed a b)) :
    (n.enclosed a b).Every P := by
  refine every_rule.mpr ⟨h, everyOf_cons.mpr ⟨.token ha, everyOf_cons.mpr ⟨hn.withField hf, ?_⟩⟩⟩
  exact everyOf_singleton.mpr (.token hb)

section

variable {n : Node α} {f : Option Field}

theorem conforms_withField : (n.withField f).Conforms ↔ n.Conforms := by
  cases n <;> exact Iff.rfl

theorem grouped_withField (h : n.Grouped) : (n.withField f).Grouped := by
  cases n with
  | token => trivial
  | rule k r ns =>
    rw [withField]
    unfold Grouped
    split
    · next hrule =>
      injection hrule with _ hr hns
      subst hr hns
      exact h
    · trivial

theorem named_withField {n : Node Bytes} (h : n.Named) : (n.withField f).Named := by
  cases n <;> exact h

theorem label_withField (n : Node α) (f : Option Field) :
    (n.withField f).label = ⟨f.map Field.label, n.label.kind, n.label.isNamed⟩ := by
  cases n <;> rfl

theorem label_enclosed (n : Node α) (a b : α) :
    (n.enclosed a b).label = ⟨n.label.field, "parenthesized_expression", true⟩ := by
  cases n <;> rfl

/-- An expression between parentheses conforms. -/
theorem conforms_enclosed (a b : α) (hk : n.label.kind ∈ Grammar.expressionNames)
    (hn : n.label.isNamed = true) : (n.enclosed a b).Conforms := by
  have hinner : rue.Derives none (.symbol "_expression") [(n.withField none).label] := by
    refine Grammar.derives_expression_iff.mpr ⟨_, hk, ?_⟩
    rw [label_withField, hn]
    rfl
  refine ⟨_, rfl, ?_⟩
  exact .seqCons .literal (.seqCons hinner (.seqCons .literal .seqNil))

end

/-! ### One node for another -/

/-- The node `n'` may stand for `n` as far as operators and keywords are concerned: it is no token,
has no operator of its own to group, and begins as `n` does or with a parenthesis. -/
structure MayStandFor (n' n : Node Bytes) : Prop where
  isRule : ∃ f r ns, n' = rule f r ns
  rank : ∀ i ∈ n'.rank?, i ∈ n.rank?
  begins : n'.leaves.head? = n.leaves.head? ∨ ∃ w, n'.leaves.head? = some (.mark .openParen, w)

namespace MayStandFor

variable {n n' : Node Bytes} {f : Option Field} {r : Rule} {us ws : List (Node Bytes)}

/-- An operator next to something else that is no token was there before. -/
theorem binary_around (h : n'.MayStandFor n) {g : Option Field} {o : Operator} {a : Bytes}
    {l m : Node Bytes} (hns : us ++ n' :: ws = [l, token g (.operator o) a, m]) :
    (l = n' ∧ us ++ n :: ws = [n, token g (.operator o) a, m]) ∨
      m = n' ∧ us ++ n :: ws = [l, token g (.operator o) a, n] := by
  obtain ⟨f', r', ns, rfl⟩ := h.isRule
  rcases us with _ | ⟨u, _ | ⟨v, _ | ⟨w, us⟩⟩⟩
  · cases hns
    exact .inl ⟨rfl, rfl⟩
  · cases hns
  · cases hns
    exact .inr ⟨rfl, rfl⟩
  · simp at hns

theorem enclosed (n : Node Bytes) (a b : Bytes) : (n.enclosed a b).MayStandFor n where
  isRule := ⟨_, _, _, rfl⟩
  rank := nofun
  begins := .inr ⟨a, rfl⟩

/-- What is around the nodes may stand for what was. -/
theorem around (h : n'.MayStandFor n) :
    (rule f r (us ++ n' :: ws)).MayStandFor (rule f r (us ++ n :: ws)) where
  isRule := ⟨_, _, _, rfl⟩
  rank := by
    intro i hi
    unfold rank? at hi
    split at hi
    · next hrule =>
      injection hrule with _ hr hns
      subst hr
      rcases h.binary_around hns with ⟨-, hold⟩ | ⟨-, hold⟩
      · rw [hold]
        exact hi
      · rw [hold]
        exact hi
    · cases hi
  begins := by
    simp only [leaves, leavesOf_append, leavesOf, List.head?_append]
    cases (leavesOf us).head? with
    | some a => exact .inl rfl
    | none =>
      rcases h.begins with heq | ⟨w, hw⟩
      · exact .inl (by rw [heq])
      · exact .inr ⟨w, by rw [hw]; rfl⟩

theorem grouped (h : n'.MayStandFor n) (hg : (rule f r (us ++ n :: ws)).Grouped) :
    (rule f r (us ++ n' :: ws)).Grouped := by
  unfold Grouped
  split
  · next hrule =>
    injection hrule with _ hr hns
    subst hr
    rcases h.binary_around hns with ⟨rfl, hold⟩ | ⟨rfl, hold⟩
    · rw [hold] at hg
      exact ⟨fun i hi => hg.1 i (h.rank i hi), hg.2⟩
    · rw [hold] at hg
      exact ⟨hg.1, fun i hi => hg.2 i (h.rank i hi)⟩
  · trivial

theorem named (h : n'.MayStandFor n) (hn : (rule f r (us ++ n :: ws)).Named) :
    (rule f r (us ++ n' :: ws)).Named := by
  obtain ⟨hwords, hbegins⟩ := hn
  refine ⟨fun g w hw => ?_, fun hr m hm => ?_⟩
  · obtain ⟨f', r', ns, rfl⟩ := h.isRule
    refine hwords g w ?_
    rw [List.mem_append, List.mem_cons] at hw ⊢
    rcases hw with hw | hw | hw
    · exact .inl hw
    · cases hw
    · exact .inr (.inr hw)
  · rw [List.mem_append, List.mem_cons] at hm
    rcases hm with hm | rfl | hm
    · exact hbegins hr m (List.mem_append_left _ hm)
    · have hold := hbegins hr n (List.mem_append_right _ List.mem_cons_self)
      rcases h.begins with heq | ⟨w, hw⟩
      · rwa [Phrase.BeginsProperly, heq]
      · rw [Phrase.BeginsProperly, hw]
        simp
    · exact hbegins hr m (List.mem_append_right _ (List.mem_cons_of_mem n hm))

end MayStandFor

/-! ### The tree around an expression -/

/-- What the tree of a program satisfies, whatever its texts are. -/
structure WellShaped (N : Node Bytes) : Prop where
  conforms : N.Every Conforms
  grouped : N.Every Grouped
  named : N.Every Named

variable {N N' n : Node Bytes} {f : Option Field} {r : Rule} {us ws : List (Node Bytes)}
  {a b : Bytes}

/-- The field of an expression is not that of a name, so a name there is no keyword. -/
theorem named_enclosed (hn : (rule f r (us ++ n :: ws)).Named) (hf : n.field ≠ some .name) :
    (n.enclosed a b).Named := by
  refine ⟨fun g w hw => .inr ?_, nofun⟩
  cases n with
  | rule k r' ns => simp [withField] at hw
  | token k t v =>
    have htoken : token g .identifier w = token none t v := by simpa [withField] using hw
    cases htoken
    exact (hn.1 k w (List.mem_append_right _ List.mem_cons_self)).resolve_left fun h => hf h.1

/-- An expression in a program may be put between parentheses. -/
theorem WellShaped.enclosed (h : N.WellShaped)
    (hputs : rue.Puts "_expression" r.name (us.map label) n.label (ws.map label))
    (hN : Replaces (rule f r (us ++ n :: ws)) (rule f r (us ++ n.enclosed a b :: ws)) N N') :
    N'.WellShaped := by
  obtain ⟨⟨hk, hnamed⟩, hname, -⟩ := Grammar.puts_expression hputs
  have hfield : n.field ≠ some .name := by
    intro hf
    refine hname ?_
    cases n <;>
      (cases hf; rfl)
  have hn : Replaces n (n.enclosed a b) N N' := .trans (.child .here) hN
  have henclosed : ∀ {P : Node Bytes → Prop}, (∀ {f t w}, P (token f t w)) → N.Every P →
      (P n → P (n.withField none)) → P (n.enclosed a b) → (n.enclosed a b).Every P :=
    fun htoken hN hwith h =>
      every_enclosed htoken htoken (hn.every_left hN) (hwith (hn.every_left hN).self) h
  have hrule : ∀ {P : Node Bytes → Prop}, N.Every P → P (rule f r (us ++ n :: ws)) :=
    fun hp => (hN.every_left hp).self
  constructor
  · -- the label is new where the expression stood, and the same in everything around
    have hparent : (rule f r (us ++ n.enclosed a b :: ws)).Every Conforms := by
      obtain ⟨hus, hnws⟩ := everyOf_append.mp (every_rule.mp (hN.every_left h.conforms)).2
      refine every_rule.mpr ⟨?_, everyOf_append.mpr ⟨hus, everyOf_cons.mpr
        ⟨?_, (everyOf_cons.mp hnws).2⟩⟩⟩
      · rw [Conforms, List.map_append, List.map_cons, label_enclosed]
        exact hputs.produces (by simp [Grammar.expressionNames])
      · exact henclosed trivial h.conforms conforms_withField.mpr (conforms_enclosed a b hk hnamed)
    refine (hN.every (R := fun m m' => m'.label = m.label) (fun _ => rfl) ?_ rfl hparent
      h.conforms).2
    intro g k vs xs m m' hlabel hconforms
    rwa [Conforms, List.map_append, List.map_cons, hlabel, ← List.map_cons, ← List.map_append]
  · exact (hn.every (R := fun m m' => m'.MayStandFor m) MayStandFor.around MayStandFor.grouped
      (.enclosed n a b) (henclosed trivial h.grouped grouped_withField trivial) h.grouped).2
  · exact (hn.every (R := fun m m' => m'.MayStandFor m) MayStandFor.around MayStandFor.named
      (.enclosed n a b) (henclosed trivial h.named named_withField
        (named_enclosed (hrule h.named) hfield)) h.named).2

end Node

end RueSyntax
