import RueSyntax.Proofs.Tree.Geometry

/-!
# No two places of a tree hold the same

A tree is known by what it is, not by where it stands, so it has to be shown that nothing stands in
two places.  It could not if all children have leaves (`Tree.Leafy`) and the leaves stand one behind
the other: then nothing has two parents (`Ordered.parent_unique`), and the preorder lists nothing
twice (`Ordered.pairwise_ne_descendants`).
-/

namespace RueSyntax

namespace Tree

variable {p q t u v w : Tree}

/-! ### Preorder -/

mutual

/-- What holds of a tree with all below it, and of all below a child with all below a later one,
holds of any two in preorder. -/
theorem pairwise_descendants {R : Tree → Tree → Prop} : ∀ (t : Tree) (k : Nat),
    (∀ p : Tree, p.Within t → ∀ c ∈ p.children, ∀ u : Tree, u.Within c → R p u) →
    (∀ p : Tree, p.Within t →
      p.children.Pairwise fun c d => ∀ u v : Tree, u.Within c → v.Within d → R u v) →
    (t.descendants k).Pairwise fun d e => R d.2 e.2
  | token _ _ _ _, _, _, _ => List.pairwise_singleton _ _
  | comment _, _, _, _ => List.pairwise_singleton _ _
  | rule f r s ts, k, hbelow, hbeside => by
    refine List.pairwise_cons.mpr ⟨fun e he => ?_, ?_⟩
    · obtain ⟨c, hc, he⟩ := mem_descendantsOf.mp he
      exact hbelow _ .refl c hc e.2 (within_iff_descendants.mpr ⟨_, he⟩)
    · exact pairwise_descendantsOf ts (k + 1) (hbeside _ .refl)
        (fun c hc p hp => hbelow p (.child hc hp)) (fun c hc p hp => hbeside p (.child hc hp))

theorem pairwise_descendantsOf {R : Tree → Tree → Prop} : ∀ (ts : List Tree) (k : Nat),
    (ts.Pairwise fun c d => ∀ u v : Tree, u.Within c → v.Within d → R u v) →
    (∀ t ∈ ts, ∀ p : Tree, p.Within t → ∀ c ∈ p.children, ∀ u : Tree, u.Within c → R p u) →
    (∀ t ∈ ts, ∀ p : Tree, p.Within t →
      p.children.Pairwise fun c d => ∀ u v : Tree, u.Within c → v.Within d → R u v) →
    (descendantsOf k ts).Pairwise fun d e => R d.2 e.2
  | [], _, _, _, _ => .nil
  | t :: ts, k, hts, hbelow, hbeside => by
    obtain ⟨ht, hts⟩ := List.pairwise_cons.mp hts
    refine List.pairwise_append.mpr ⟨?_, ?_, fun d hd e he => ?_⟩
    · exact pairwise_descendants t k (hbelow t List.mem_cons_self) (hbeside t List.mem_cons_self)
    · exact pairwise_descendantsOf ts k hts (fun u hu => hbelow u (List.mem_cons_of_mem t hu))
        (fun u hu => hbeside u (List.mem_cons_of_mem t hu))
    · obtain ⟨v, hv, he⟩ := mem_descendantsOf.mp he
      exact ht v hv d.2 e.2 (within_iff_descendants.mpr ⟨_, hd⟩)
        (within_iff_descendants.mpr ⟨_, he⟩)

end

/-! ### Sizes -/

theorem sizeOf_lt_of_mem (h : u ∈ t.children) : sizeOf u < sizeOf t := by
  cases t with
  | rule f r s ts =>
    have hlt : sizeOf u < sizeOf ts := List.sizeOf_lt_of_mem h
    rw [rule.sizeOf_spec]
    omega
  | _ => cases h

theorem Within.sizeOf_le (h : u.Within t) : sizeOf u ≤ sizeOf t := by
  induction h with
  | refl => exact Nat.le_refl _
  | child hv h ih => exact Nat.le_trans ih (Nat.le_of_lt (sizeOf_lt_of_mem hv))

/-! ### Places -/

/-- Every child has leaves. -/
def Leafy (t : Tree) : Prop := ∀ p : Tree, p.Within t → ∀ u ∈ p.children, ∃ l, l ∈ u.fringe

/-- What stands below a child has leaves as well. -/
theorem Leafy.exists_leaf (h : t.Leafy) (hp : p.Within t) (hc : v ∈ p.children)
    (hu : u.Within v) : ∃ l, l ∈ u.fringe := by
  rcases hu.eq_or_child with rfl | ⟨q, hq, hu⟩
  · exact h p hp u hc
  · exact h q (hq.trans (.trans (.of_child hc) hp)) u hu

theorem pairwise_precedes_children (p : Tree) :
    p.children.Pairwise fun u v => p.Precedes u v :=
  List.pairwise_iff_forall_sublist.mpr Precedes.of_sublist

namespace Ordered

theorem not_precedes_self (h : t.Ordered) {l : Leaf} (hl : l ∈ u.fringe) : ¬ t.Precedes u u :=
  fun hu => Nat.lt_irrefl _ (h.start_lt hu hl hl)

/-- What has leaves stands below one child only. -/
theorem child_unique (h : p.Ordered) (hu : u ∈ p.children) (hv : v ∈ p.children)
    (hwu : w.Within u) (hwv : w.Within v) {l : Leaf} (hl : l ∈ w.fringe) : u = v := by
  rcases Precedes.compare hu hv with huv | huv | hvu
  · exact huv
  · exact (h.not_precedes_self hl (huv.of_within hwu hwv)).elim
  · exact (h.not_precedes_self hl (hvu.of_within hwv hwu)).elim

/-- A parent within another one of the same child is the other one. -/
theorem parent_unique_of_within (h : q.Ordered) (hpq : p.Within q) (hup : u ∈ p.children)
    (huq : u ∈ q.children) {l : Leaf} (hl : l ∈ u.fringe) : p = q := by
  cases hpq with
  | refl => rfl
  | @child v _ hv hpv =>
    have huv : u = v := h.child_unique huq hv .refl (.trans (.of_child hup) hpv) hl
    have hle : sizeOf p ≤ sizeOf u := huv ▸ hpv.sizeOf_le
    have hlt : sizeOf u < sizeOf p := sizeOf_lt_of_mem hup
    omega

/-- Nothing has two parents. -/
theorem parent_unique (h : t.Ordered) (hleafy : t.Leafy) (hp : p.Within t) (hq : q.Within t)
    (hup : u ∈ p.children) (huq : u ∈ q.children) : p = q := by
  obtain ⟨l, hl⟩ := hleafy p hp u hup
  rcases hp.compare hq with hpq | hqp | hpq | hqp
  · exact (h.of_within hq).parent_unique_of_within hpq hup huq hl
  · exact ((h.of_within hp).parent_unique_of_within hqp huq hup hl).symm
  · exact (h.not_precedes_self hl (hpq.of_within (.of_child hup) (.of_child huq))).elim
  · exact (h.not_precedes_self hl (hqp.of_within (.of_child huq) (.of_child hup))).elim

/-- The preorder lists nothing twice. -/
theorem pairwise_ne_descendants (h : t.Ordered) (hleafy : t.Leafy) (k : Nat) :
    (t.descendants k).Pairwise fun d e => d.2 ≠ e.2 := by
  refine pairwise_descendants t k (fun p hp c hc u hu => ?_) (fun p hp => ?_)
  · rintro rfl
    have hle : sizeOf p ≤ sizeOf c := hu.sizeOf_le
    have hlt : sizeOf c < sizeOf p := sizeOf_lt_of_mem hc
    omega
  · refine (pairwise_precedes_children p).imp_of_mem fun {c d} hc hd hcd u v hu hv => ?_
    rintro rfl
    obtain ⟨l, hl⟩ := hleafy.exists_leaf hp hc hu
    exact (h.of_within hp).not_precedes_self hl (hcd.of_within hu hv)

theorem nodup_children (h : t.Ordered) (hleafy : t.Leafy) (hp : p.Within t) :
    p.children.Nodup := by
  refine (pairwise_precedes_children p).imp_of_mem fun {c d} hc hd hcd => ?_
  rintro rfl
  obtain ⟨l, hl⟩ := hleafy p hp c hc
  exact (h.of_within hp).not_precedes_self hl hcd

end Ordered

end Tree

theorem SourceFile.leafy (s : SourceFile) : s.tree.Leafy :=
  fun _ hp _ hu => (tight_of_mem hp hu).exists_leaf

end RueSyntax
