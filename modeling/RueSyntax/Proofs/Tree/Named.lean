import RueSyntax.Proofs.Tree.RoundTrip

/-!
# Names that are read

What is read is named as a tree to be written has to be: in a proper phrase a name that is not
introduced has no spelling of a word that begins an expression, and nothing in a block begins with a
name in the spelling of `let` (`Phrase.fitIn_of_proper`).  Whether all nodes of a tree are named
that way can be computed.
-/

namespace RueSyntax

variable {α : Type}

namespace Node

mutual

/-- Whether the node and all below it pass. -/
def all (p : Node α → Bool) : Node α → Bool
  | token f t a => p (token f t a)
  | rule f r ns => p (rule f r ns) && allOf p ns

def allOf (p : Node α → Bool) : List (Node α) → Bool
  | [] => true
  | n :: ns => all p n && allOf p ns

end

variable {P : Node α → Prop} [DecidablePred P]

mutual

theorem all_iff : ∀ n : Node α, n.all (fun n => decide (P n)) = true ↔ n.Every P
  | token f t a => by rw [all, decide_eq_true_eq, every_token]
  | rule f r ns => by rw [all, Bool.and_eq_true, decide_eq_true_eq, every_rule, allOf_iff ns]

theorem allOf_iff : ∀ ns : List (Node α), allOf (fun n => decide (P n)) ns = true ↔ EveryOf P ns
  | [] => by simp [allOf]
  | n :: ns => by rw [allOf, Bool.and_eq_true, all_iff n, allOf_iff ns, everyOf_cons]

end

instance (n : Node α) : Decidable (n.Every P) := decidable_of_iff _ (all_iff n)

/-- The name is introduced in the rule, or has no spelling of a word that begins an expression. -/
def NamedIn (r : Rule) : Node Bytes → Prop
  | token f .identifier w => f = some .name ∧ r.declares = true ∨ w ∉ operandWords
  | _ => True

instance (r : Rule) : DecidablePred (NamedIn r)
  | token f .identifier w =>
    inferInstanceAs (Decidable (f = some .name ∧ r.declares = true ∨ w ∉ operandWords))
  | token _ (.word _) _ | token _ (.mark _) _ | token _ (.operator _) _ | token _ .integer _
  | token _ .unitType _ | rule _ _ _ => .isTrue trivial

theorem named_rule_iff {f : Option Field} {r : Rule} {ns : List (Node Bytes)} :
    (rule f r ns).Named ↔ (∀ n ∈ ns, n.NamedIn r) ∧
      (r = .block → ∀ n ∈ ns, Phrase.BeginsProperly n.leaves) := by
  refine and_congr_left fun _ => ⟨fun h n hn => ?_, fun h g w hw => h _ hw⟩
  unfold NamedIn
  split
  · exact h _ _ hn
  · trivial

instance : DecidablePred Phrase.BeginsProperly := fun ts =>
  inferInstanceAs (Decidable (ts.head? ≠ some (.identifier, letText)))

instance : DecidablePred Named
  | token _ _ _ => .isTrue trivial
  | rule _ _ ns => @decidable_of_iff _ _ named_rule_iff.symm
    (@instDecidableAnd _ _ (List.decidableBAll _ ns) inferInstance)

/-! ### Nodes in a rule -/

/-- The nodes are named, and may stand in the rule. -/
def FitIn (r : Rule) (ns : List (Node Bytes)) : Prop := ∀ n ∈ ns, n.Every Named ∧ n.NamedIn r

section

variable {r k : Rule} {f : Option Field} {w : Bytes} {ns ms : List (Node Bytes)}

@[simp] theorem fitIn_nil : FitIn r [] := nofun

@[simp] theorem fitIn_append : FitIn r (ns ++ ms) ↔ FitIn r ns ∧ FitIn r ms :=
  List.forall_mem_append

theorem fitIn_token {t : Terminal} (ht : t ≠ .identifier) :
    FitIn r (token f t w :: ns) ↔ FitIn r ns := by
  refine List.forall_mem_cons.trans (and_iff_right ⟨.token trivial, ?_⟩)
  cases t with
  | identifier => exact (ht rfl).elim
  | _ => trivial

@[simp] theorem fitIn_word {k : Keyword} : FitIn r (token f (.word k) w :: ns) ↔ FitIn r ns :=
  fitIn_token nofun

@[simp] theorem fitIn_mark {m : Mark} : FitIn r (token f (.mark m) w :: ns) ↔ FitIn r ns :=
  fitIn_token nofun

@[simp] theorem fitIn_operator {o : Operator} :
    FitIn r (token f (.operator o) w :: ns) ↔ FitIn r ns :=
  fitIn_token nofun

@[simp] theorem fitIn_integer : FitIn r (token f .integer w :: ns) ↔ FitIn r ns :=
  fitIn_token nofun

@[simp] theorem fitIn_unitType : FitIn r (token f .unitType w :: ns) ↔ FitIn r ns :=
  fitIn_token nofun

@[simp] theorem fitIn_identifier : FitIn r (token f .identifier w :: ns) ↔
    (f = some .name ∧ r.declares = true ∨ w ∉ operandWords) ∧ FitIn r ns :=
  List.forall_mem_cons.trans (and_congr_left' (and_iff_right (.token trivial)))

theorem fitIn_rule : FitIn r (rule f k ms :: ns) ↔
    (FitIn k ms ∧ (k = .block → ∀ n ∈ ms, Phrase.BeginsProperly n.leaves)) ∧ FitIn r ns := by
  refine List.forall_mem_cons.trans (and_congr_left' ?_)
  rw [every_rule, named_rule_iff]
  constructor
  · rintro ⟨⟨⟨hin, hbegins⟩, hevery⟩, -⟩
    exact ⟨fun n hn => ⟨hevery n hn, hin n hn⟩, hbegins⟩
  · rintro ⟨hfit, hbegins⟩
    exact ⟨⟨⟨fun n hn => (hfit n hn).2, hbegins⟩, fun n hn => (hfit n hn).1⟩, trivial⟩

end

end Node

namespace Phrase

open Node

/-- The statements of a block begin properly. -/
theorem begins_of_proper : ∀ {ss : Phrase Bytes .statements}, ss.Proper →
    ∀ n ∈ ss.nodes none, BeginsProperly n.leaves
  | noStatements, _ => nofun
  | moreStatements ss s, ⟨hss, _, hs⟩ => by
    refine List.forall_mem_append.mpr ⟨begins_of_proper hss, fun n hn => ?_⟩
    obtain ⟨m, hm⟩ := nodes_statement s none
    rw [hm, List.mem_singleton] at hn
    rw [hn, leaves_of_nodes hm]
    exact hs

/-- The nodes of a proper phrase are named, and may stand in any rule. -/
theorem fitIn_of_proper {c : Category} {p : Phrase Bytes c} (hp : p.Proper) (f : Option Field)
    (r : Rule) : FitIn r (p.nodes f) := by
  have hmark : ∀ (m : Mark) (w : Bytes), BeginsProperly (token none (.mark m) w).leaves :=
    fun _ _ => nofun
  have hnil : ∀ n ∈ ([] : List (Node Bytes)), BeginsProperly n.leaves := nofun
  induction p generalizing f r with
  | block opening ss closing ih =>
    simp only [nodes, fitIn_rule, fitIn_mark, fitIn_append, fitIn_nil, and_true,
      List.forall_mem_cons, List.forall_mem_append]
    exact ⟨ih hp none .block, fun _ => ⟨hmark _ _, begins_of_proper hp, hmark _ _, hnil⟩⟩
  | blockWithValue opening ss value closing ihs ih =>
    obtain ⟨hss, hvalue, hbegin⟩ := hp
    obtain ⟨n, hn⟩ := nodes_expression value none
    have hvalues := ih hvalue none .block
    rw [hn] at hvalues
    simp only [nodes, hn, fitIn_rule, fitIn_mark, fitIn_append, fitIn_nil, and_true,
      List.forall_mem_cons, List.forall_mem_append]
    refine ⟨⟨ihs hss none .block, hvalues⟩, fun _ => ⟨hmark _ _, begins_of_proper hss, ⟨?_, hnil⟩,
      hmark _ _, hnil⟩⟩
    rw [leaves_of_nodes hn]
    exact hbegin
  | _ => simp_all [nodes, fitIn_rule, Proper, Rule.declares]

/-- In a file of proper functions all nodes are named. -/
theorem named_file {fs : Phrase Bytes .functions} (hp : fs.Proper) :
    (rule none .sourceFile (fs.nodes none)).Every Named := by
  have hfile : FitIn .sourceFile [rule none .sourceFile (fs.nodes none)] :=
    fitIn_rule.mpr ⟨⟨fitIn_of_proper hp none .sourceFile, nofun⟩, fitIn_nil⟩
  exact (hfile _ List.mem_cons_self).1

end Phrase

end RueSyntax
