import RueSyntax.Highlight.Capture
import RueSyntax.Proofs.Tree.Preorder

/-!
# The captures of a query

What a query captures is found by trying every pattern at every node and sorting what was found.
`Pattern.Matches` says what a pattern is about without that search: a node of a kind, wherever it
stands, or a part of a parent.  A query lists all that its patterns match and nothing else
(`Query.mem_highlights`), each once (`Query.nodup_highlights`), in order
(`Query.pairwise_before_highlights`).
-/

namespace RueSyntax

/-- The tree `u` stands in this field of a node in `t` that the rule makes. -/
def Tree.HasPart (t : Tree) (r : Rule) (f : Field) (u : Tree) : Prop :=
  ∃ p : Tree, p.Within t ∧ p.kind = .rule r ∧ u ∈ p.children ∧ u.field = some f

namespace Pattern

variable {p : Pattern} {t u d e : Tree} {k : Kind} {c : Capture}

/-- The pattern is about nodes of this kind, wherever they stand. -/
def fits : Pattern → Kind → Bool
  | kind k _, l => l == k
  | anyOf ts _, l => ts.any fun t => l == .token t
  | part _ _ _ _, _ => false

/-- The pattern matches the node `u` of the tree `t`. -/
def Matches (t u : Tree) : Pattern → Prop
  | part r f k _ => t.HasPart r f u ∧ u.kind = k
  | p => u.Within t ∧ p.fits u.kind = true

theorem found_kind (k : Kind) (c : Capture) (d : Tree) :
    (kind k c).found d = if (kind k c).fits d.kind = true then [d] else [] := rfl

theorem found_anyOf (ts : List Terminal) (c : Capture) (d : Tree) :
    (anyOf ts c).found d = if (anyOf ts c).fits d.kind = true then [d] else [] := by
  cases d with
  | token f s w span =>
    have hfits : (anyOf ts c).fits (.token s) = ts.contains s := by simp [fits, List.any_eq]
    rw [Tree.kind, hfits]
    rfl
  | _ => simp [found, fits, Tree.kind]

theorem found_part (r : Rule) (f : Field) (k : Kind) (c : Capture) (d : Tree) :
    (part r f k c).found d = if (d.kind == .rule r) = true then
      d.children.filter fun u => u.field == some f && u.kind == k else [] := rfl

theorem mem_own {b : Kind → Bool} :
    (u ∈ if b d.kind = true then [d] else []) ↔ u = d ∧ b u.kind = true := by
  by_cases h : b d.kind = true
  · rw [if_pos h, List.mem_singleton]
    exact ⟨fun hu => ⟨hu, hu ▸ h⟩, And.left⟩
  · rw [if_neg h]
    refine ⟨fun hu => (List.not_mem_nil hu).elim, ?_⟩
    rintro ⟨rfl, hu⟩
    exact (h hu).elim

theorem mem_found_kind : u ∈ (kind k c).found d ↔ u = d ∧ (kind k c).fits u.kind = true := by
  rw [found_kind, mem_own]

theorem mem_found_anyOf {ts : List Terminal} :
    u ∈ (anyOf ts c).found d ↔ u = d ∧ (anyOf ts c).fits u.kind = true := by
  rw [found_anyOf, mem_own]

theorem mem_found_part {r : Rule} {f : Field} : u ∈ (part r f k c).found d ↔
    d.kind = .rule r ∧ u ∈ d.children ∧ u.field = some f ∧ u.kind = k := by
  rw [found_part]
  by_cases h : (d.kind == .rule r) = true
  · rw [if_pos h, List.mem_filter, Bool.and_eq_true, beq_iff_eq, beq_iff_eq]
    exact (and_iff_right (beq_iff_eq.mp h)).symm
  · rw [if_neg h]
    exact ⟨fun hu => (List.not_mem_nil hu).elim, fun hu => (h (beq_iff_eq.mpr hu.1)).elim⟩

/-- A pattern matches what it captures somewhere in the tree. -/
theorem matches_iff_found : p.Matches t u ↔ ∃ d : Tree, d.Within t ∧ u ∈ p.found d := by
  cases p with
  | kind k c =>
    simp only [mem_found_kind]
    exact ⟨fun h => ⟨u, h.1, rfl, h.2⟩, fun ⟨_, hd, hu, h⟩ => ⟨hu ▸ hd, h⟩⟩
  | anyOf ts c =>
    simp only [mem_found_anyOf]
    exact ⟨fun h => ⟨u, h.1, rfl, h.2⟩, fun ⟨_, hd, hu, h⟩ => ⟨hu ▸ hd, h⟩⟩
  | part r f k c =>
    simp only [mem_found_part]
    constructor
    · rintro ⟨⟨d, hd, hr, hu, hf⟩, hk⟩
      exact ⟨d, hd, hr, hu, hf, hk⟩
    · rintro ⟨d, hd, hr, hu, hf, hk⟩
      exact ⟨⟨d, hd, hr, hu, hf⟩, hk⟩

theorem Matches.within (h : p.Matches t u) : u.Within t := by
  cases p with
  | part r f k c =>
    obtain ⟨⟨d, hd, -, hu, -⟩, -⟩ := h
    exact .trans (.of_child hu) hd
  | _ => exact h.1

/-- What a pattern captures it captures at one node. -/
theorem found_unique (ho : t.Ordered) (hl : t.Leafy) (hd : d.Within t) (he : e.Within t)
    (hud : u ∈ p.found d) (hue : u ∈ p.found e) : d = e := by
  cases p with
  | kind k c => exact (mem_found_kind.mp hud).1.symm.trans (mem_found_kind.mp hue).1
  | anyOf ts c => exact (mem_found_anyOf.mp hud).1.symm.trans (mem_found_anyOf.mp hue).1
  | part r f k c =>
    exact ho.parent_unique hl hd he (mem_found_part.mp hud).2.1 (mem_found_part.mp hue).2.1

theorem nodup_found (ho : t.Ordered) (hl : t.Leafy) (hd : d.Within t) : (p.found d).Nodup := by
  have hown : ∀ b : Bool, (if b = true then [d] else []).Nodup := by
    intro b
    cases b
    · exact .nil
    · exact List.pairwise_singleton _ d
  cases p with
  | kind k c =>
    rw [found_kind]
    exact hown _
  | anyOf ts c =>
    rw [found_anyOf]
    exact hown _
  | part r f k c =>
    rw [found_part]
    split
    · exact (ho.nodup_children hl hd).filter _
    · exact .nil

end Pattern

namespace Highlight

variable {ps : List (Pattern × Nat)} {t d : Tree} {x y : Highlight}

theorem mem_ofNode : x ∈ ofNode ps d ↔
    ∃ p, (p, x.pattern) ∈ ps ∧ p.capture = x.capture ∧ x.node ∈ p.found d := by
  simp only [ofNode, List.mem_flatMap, List.mem_map]
  constructor
  · rintro ⟨⟨p, n⟩, hp, u, hu, rfl⟩
    exact ⟨p, hp, rfl, hu⟩
  · rintro ⟨p, hp, hc, hu⟩
    exact ⟨(p, x.pattern), hp, x.node, hu, by rw [hc]⟩

/-- Patterns with different numbers capture different things. -/
theorem nodup_ofNode (ho : t.Ordered) (hl : t.Leafy) (hd : d.Within t)
    (hps : ps.Pairwise fun p q => p.2 ≠ q.2) : (ofNode ps d).Nodup := by
  refine List.pairwise_flatMap.mpr ⟨fun p _ => ?_, hps.imp fun hne x hx y hy => ?_⟩
  · refine List.pairwise_map.mpr ((Pattern.nodup_found ho hl hd).imp fun {u v} huv heq => ?_)
    exact huv (Highlight.mk.inj heq).2.2
  · obtain ⟨u, -, rfl⟩ := List.mem_map.mp hx
    obtain ⟨v, -, rfl⟩ := List.mem_map.mp hy
    exact fun heq => hne (Highlight.mk.inj heq).1

/-! ### The order of captures -/

/-- The place of a capture in the list: where it begins, then its pattern. -/
def StrictlyBefore (x y : Highlight) : Prop :=
  x.node.span.start.byte < y.node.span.start.byte ∨
    x.node.span.start.byte = y.node.span.start.byte ∧ x.pattern < y.pattern

theorem before_iff : before x y = true ↔ x.node.span.start.byte < y.node.span.start.byte ∨
    x.node.span.start.byte = y.node.span.start.byte ∧ x.pattern ≤ y.pattern := by
  simp only [before, Bool.or_eq_true, Bool.and_eq_true, decide_eq_true_eq, beq_iff_eq]

theorem before_trans (x y z : Highlight) (hxy : before x y = true) (hyz : before y z = true) :
    before x z = true := by
  rw [before_iff] at hxy hyz ⊢
  omega

theorem before_total (x y : Highlight) : (before x y || before y x) = true := by
  rw [Bool.or_eq_true, before_iff, before_iff]
  omega

end Highlight

namespace Query

variable {q : Query} {t : Tree} {x y : Highlight}

/-- A query captures what its patterns match. -/
theorem mem_highlights : x ∈ q.highlights t ↔
    ∃ p, q.patterns[x.pattern]? = some p ∧ p.capture = x.capture ∧ p.Matches t x.node := by
  simp only [highlights, List.mem_mergeSort, List.mem_flatMap, Highlight.mem_ofNode,
    Pattern.matches_iff_found]
  constructor
  · rintro ⟨⟨k, d⟩, hd, p, hp, hc, hu⟩
    exact ⟨p, List.mem_zipIdx_iff_getElem?.mp hp, hc, d,
      Tree.within_iff_descendants.mpr ⟨k, hd⟩, hu⟩
  · rintro ⟨p, hp, hc, d, hd, hu⟩
    obtain ⟨k, hk⟩ := Tree.within_iff_descendants.mp hd
    exact ⟨(k, d), hk, p, List.mem_zipIdx_iff_getElem?.mpr hp, hc, hu⟩

theorem pairwise_ne_zipIdx (q : Query) : q.patterns.zipIdx.Pairwise fun p r => p.2 ≠ r.2 := by
  have hrange : (q.patterns.zipIdx.map Prod.snd).Pairwise (· < ·) := by
    rw [List.zipIdx_map_snd]
    exact List.pairwise_lt_range' 1
  exact (List.pairwise_map.mp hrange).imp Nat.ne_of_lt

/-- Nothing is captured twice by one pattern. -/
theorem nodup_highlights (q : Query) (ho : t.Ordered) (hl : t.Leafy) :
    (q.highlights t).Nodup := by
  refine (List.mergeSort_perm _ _).nodup_iff.mpr (List.pairwise_flatMap.mpr ⟨?_, ?_⟩)
  · rintro ⟨k, d⟩ hd
    exact Highlight.nodup_ofNode ho hl (Tree.within_iff_descendants.mpr ⟨k, hd⟩)
      q.pairwise_ne_zipIdx
  · refine (ho.pairwise_ne_descendants hl 0).imp_of_mem fun {d e} hd he hne x hx y hy => ?_
    rintro rfl
    obtain ⟨p, hp, -, hud⟩ := Highlight.mem_ofNode.mp hx
    obtain ⟨r, hr, -, hue⟩ := Highlight.mem_ofNode.mp hy
    rw [List.mem_zipIdx_iff_getElem?] at hp hr
    obtain rfl : p = r := Option.some.inj (hp.symm.trans hr)
    exact hne (Pattern.found_unique ho hl (Tree.within_iff_descendants.mpr ⟨_, hd⟩)
      (Tree.within_iff_descendants.mpr ⟨_, he⟩) hud hue)

theorem pairwise_before_highlights (q : Query) (t : Tree) :
    (q.highlights t).Pairwise fun x y => Highlight.before x y = true :=
  List.pairwise_mergeSort Highlight.before_trans Highlight.before_total _

/-- If no two captures of one pattern begin at one place, the order is strict. -/
theorem pairwise_strictlyBefore (q : Query) (ho : t.Ordered) (hl : t.Leafy)
    (h : ∀ x ∈ q.highlights t, ∀ y ∈ q.highlights t, x.pattern = y.pattern →
      x.node.span.start.byte = y.node.span.start.byte → x.node = y.node) :
    (q.highlights t).Pairwise Highlight.StrictlyBefore := by
  have hnodup : (q.highlights t).Pairwise fun x y => x ≠ y := q.nodup_highlights ho hl
  refine ((q.pairwise_before_highlights t).and hnodup).imp_of_mem fun {x y} hx hy hxy => ?_
  obtain ⟨hbefore, hne⟩ := hxy
  rcases Highlight.before_iff.mp hbefore with hlt | ⟨hstart, hle⟩
  · exact .inl hlt
  · refine .inr ⟨hstart, Nat.lt_of_le_of_ne hle fun hpattern => hne ?_⟩
    obtain ⟨p, hp, hpc, -⟩ := mem_highlights.mp hx
    obtain ⟨r, hr, hrc, -⟩ := mem_highlights.mp hy
    rw [hpattern] at hp
    obtain rfl : p = r := Option.some.inj (hp.symm.trans hr)
    have hcapture : x.capture = y.capture := hpc.symm.trans hrc
    have hnode : x.node = y.node := h x hx y hy hpattern hstart
    cases x
    cases y
    cases hpattern
    cases hcapture
    cases hnode
    rfl

end Query

end RueSyntax
