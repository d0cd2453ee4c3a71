import RueSyntax.Proofs.Tree.Lexing

/-!
# Where comments stand in a tree

A comment is a child of the smallest node that has a token on both sides of it, and of the file if
no node has.  The leaves of a tree stand in the order of the text, so of two trees within one, one
contains the other or all leaves of the one stand before all of the other (`Within.compare`): a tree
that has tokens on both sides of a comment cannot stand beside its parent, nor inside one of the
parent's other children.

Which comments a text has can be seen without reading its tokens: `Comment.scan` looks for openings
alone.
-/

namespace RueSyntax

/-! ### The comments of a text -/

/-- The comments of a text that stands at `p` and of which the first `n` bytes belong to one. -/
def Comment.scan : Nat → Position → Bytes → List Comment
  | _, _, [] => []
  | n + 1, p, b :: bs => scan n (p.next b) bs
  | 0, p, b :: bs =>
    match opening (b :: bs) with
    | some (kind, n) =>
      let text := (b :: bs).take n
      ⟨kind, text, Span.of p text⟩ :: scan (n - 1) (p.next b) bs
    | none => scan 0 (p.next b) bs

namespace Comment

theorem scan_length (p : Position) (w x : Bytes) :
    scan w.length p (w ++ x) = scan 0 (p.after w) x := by
  induction w generalizing p with
  | nil => rfl
  | cons b w ih => exact ih (p.next b)

theorem scan_cons {b : UInt8} {x : Bytes} (p : Position) (h : opening (b :: x) = none) :
    scan 0 p (b :: x) = scan 0 (p.next b) x := by
  simp only [scan, h]

/-- A comment begins with a slash. -/
theorem scan_of_not_mem (p : Position) {w : Bytes} (x : Bytes) (h : 47 ∉ w) :
    scan 0 p (w ++ x) = scan 0 (p.after w) x := by
  induction w generalizing p with
  | nil => rfl
  | cons b w ih =>
    have hb : b ≠ 47 := fun hb => h (hb ▸ List.mem_cons_self)
    have hw : 47 ∉ w := fun hw => h (List.mem_cons_of_mem b hw)
    have hnone : opening (b :: (w ++ x)) = none := opening_eq_none fun hh => hb (Option.some.inj hh)
    rw [List.cons_append, scan_cons p hnone, ih (p.next b) hw]
    rfl

theorem scan_comment {k : CommentKind} {w x : Bytes} (p : Position) (hw : k.HasText w)
    (hx : k.EndsBefore x) :
    scan 0 p (w ++ x) = ⟨k, w, Span.of p w⟩ :: scan 0 (p.after w) x := by
  have hopen := opening_of_hasText hw hx
  have htake : (w ++ x).take w.length = w := List.take_left
  obtain ⟨w', rfl⟩ := Reader.head_of_comment hw
  simp only [List.cons_append] at hopen htake ⊢
  simp only [scan, hopen, htake]
  exact congrArg _ (scan_length (p.next 47) w' x)

end Comment

/-- No comment begins inside a token. -/
theorem Terminal.slash_not_mem {t : Terminal} {b : UInt8} {w : Bytes} (h : t.HasText (b :: w)) :
    47 ∉ w := by
  have hword : (∀ c ∈ b :: w, Byte.isWord c = true) → 47 ∉ w :=
    fun hall hs => absurd (hall 47 (List.mem_cons_of_mem b hs)) (by decide)
  cases t with
  | word k => exact hword (isName_of_word h).2
  | identifier => exact hword h.2
  | integer => exact hword fun c hc => Byte.isWord_of_isDigit (h.2 c hc)
  | mark m =>
    cases m <;>
      (cases h; decide)
  | operator o =>
    cases o <;>
      (cases h; decide)
  | unitType =>
    cases h
    decide

/-- The comments of a text are those among its leaves. -/
theorem Tiled.scan {p : Position} {ls : List Leaf} {x : Bytes} (h : Tiled p ls x) :
    Comment.scan 0 p x = ls.filterMap Leaf.comment? := by
  induction h with
  | nil => rfl
  | @blank p b ls x hb h ih =>
    rw [Comment.scan_cons p (Comment.opening_eq_none ?_), ih]
    rintro ⟨⟩
    cases hb
  | @leaf p l ls x hp hw hx h ih =>
    cases l with
    | comment c =>
      obtain ⟨k, w, span⟩ := c
      obtain rfl : span = Span.of p w := hp
      have hstop := CommentKind.endsBefore_of_endsAt hx
      exact (Comment.scan_comment p hw hstop).trans (congrArg _ ih)
    | token t w span =>
      have hnone := Reader.opening_of_token hw (Terminal.endsBefore_of_endsAt hx)
      obtain ⟨b, w', rfl, -⟩ := Terminal.head_of_hasText hw
      refine (Comment.scan_cons p hnone).trans ?_
      exact (Comment.scan_of_not_mem (p.next b) x (Terminal.slash_not_mem hw)).trans ih

/-! ### One inside the other or one before the other -/

namespace Tree

/-- All leaves of `p` stand before those of `q` in `t`. -/
def Precedes (t p q : Tree) : Prop := (p.fringe ++ q.fringe).Sublist t.fringe

variable {p q t u v : Tree} {c : Comment}

namespace Precedes

theorem of_within (h : t.Precedes u v) (hp : p.Within u) (hq : q.Within v) : t.Precedes p q :=
  (hp.fringe_infix.sublist.append hq.fringe_infix.sublist).trans h

theorem around (h : u.Precedes p q) (hu : u.Within t) : t.Precedes p q :=
  h.trans hu.fringe_infix.sublist

theorem of_children {before after : List Tree} (h : t.children = before ++ after)
    (hu : u ∈ before) (hv : v ∈ after) : t.Precedes u v := by
  have hut : u ∈ t.children := h ▸ List.mem_append_left after hu
  rw [Precedes, fringe_of_children hut, h, fringeOf_append]
  exact (fringe_infix_of_mem hu).sublist.append (fringe_infix_of_mem hv).sublist

/-- Of two children one stands before the other. -/
theorem compare (hu : u ∈ t.children) (hv : v ∈ t.children) :
    u = v ∨ t.Precedes u v ∨ t.Precedes v u := by
  obtain ⟨before, after, hts⟩ := List.append_of_mem hu
  rw [hts, List.mem_append, List.mem_cons] at hv
  rcases hv with hv | rfl | hv
  · exact .inr (.inr (.of_children hts hv List.mem_cons_self))
  · exact .inl rfl
  · rw [List.append_cons] at hts
    exact .inr (.inl (.of_children hts (List.mem_append_right _ (List.mem_singleton.mpr rfl)) hv))

end Precedes

/-- Of two trees within one, one contains the other or stands before it. -/
theorem Within.compare (hp : p.Within t) (hq : q.Within t) :
    p.Within q ∨ q.Within p ∨ t.Precedes p q ∨ t.Precedes q p := by
  induction hp with
  | refl => exact .inr (.inl hq)
  | @child u t hu hp ih =>
    cases hq with
    | refl => exact .inl (.child hu hp)
    | @child v _ hv hq =>
      rcases Precedes.compare hu hv with rfl | huv | hvu
      · rcases ih hq with h | h | h | h
        · exact .inl h
        · exact .inr (.inl h)
        · exact .inr (.inr (.inl (h.around (.of_child hu))))
        · exact .inr (.inr (.inr (h.around (.of_child hu))))
      · exact .inr (.inr (.inl (huv.of_within hp hq)))
      · exact .inr (.inr (.inr (hvu.of_within hq hp)))

/-- There are a token that starts before the comment and one that starts after it. -/
def Surrounds (t : Tree) (c : Comment) : Prop :=
  (∃ a ∈ t.fringe, a.comment? = none ∧ a.span.start.byte < c.span.start.byte) ∧
    ∃ a ∈ t.fringe, a.comment? = none ∧ c.span.start.byte < a.span.start.byte

/-- The leaves stand one behind the other. -/
structure Ordered (t : Tree) : Prop where
  nonempty : ∀ l ∈ t.fringe, l.span.start.byte < l.span.stop.byte
  increasing : t.fringe.Pairwise fun l m => l.span.stop.byte ≤ m.span.start.byte

namespace Ordered

theorem of_within (h : t.Ordered) (hu : u.Within t) : u.Ordered where
  nonempty l hl := h.nonempty l (hu.fringe_infix.subset hl)
  increasing := h.increasing.sublist hu.fringe_infix.sublist

theorem stop_le (h : t.Ordered) (hpq : t.Precedes p q) {l m : Leaf} (hl : l ∈ p.fringe)
    (hm : m ∈ q.fringe) : l.span.stop.byte ≤ m.span.start.byte :=
  (List.pairwise_append.mp (h.increasing.sublist hpq)).2.2 l hl m hm

theorem start_lt (h : t.Ordered) (hpq : t.Precedes p q) {l m : Leaf} (hl : l ∈ p.fringe)
    (hm : m ∈ q.fringe) : l.span.start.byte < m.span.start.byte := by
  have hmem : l ∈ t.fringe := hpq.subset (List.mem_append_left _ hl)
  exact Nat.lt_of_lt_of_le (h.nonempty l hmem) (h.stop_le hpq hl hm)

/-- What surrounds a comment does not stand beside it. -/
theorem not_surrounds_before (h : t.Ordered) (hq : t.Precedes q (.comment c)) :
    ¬ q.Surrounds c := by
  rintro ⟨-, a, ha, -, hlt⟩
  have hac : a.span.start.byte < c.span.start.byte := h.start_lt hq ha List.mem_cons_self
  exact Nat.lt_asymm hlt hac

theorem not_surrounds_behind (h : t.Ordered) (hq : t.Precedes (.comment c) q) :
    ¬ q.Surrounds c := by
  rintro ⟨⟨a, ha, -, hlt⟩, -⟩
  have hca : c.span.start.byte < a.span.start.byte := h.start_lt hq List.mem_cons_self ha
  exact Nat.lt_asymm hlt hca

/-- A comment is in the smallest tree that has tokens on both sides of it. -/
theorem within_of_surrounds (h : t.Ordered) (hp : p.Within t) (hc : .comment c ∈ p.children)
    (hq : q.Within t) (hs : q.Surrounds c) : p.Within q := by
  have hcp : (Tree.comment c).Within p := .of_child hc
  rcases hp.compare hq with hpq | hqp | hpq | hqp
  · exact hpq
  · -- inside the parent, it is the parent or within one child
    cases hqp with
    | refl => exact .refl
    | @child v _ hv hqv =>
      rcases Precedes.compare hc hv with rfl | hcv | hvc
      · obtain ⟨⟨a, ha, hn, -⟩, -⟩ := hs
        rw [hqv.eq_of_leaf rfl] at ha
        obtain rfl := List.mem_singleton.mp ha
        cases hn
      · exact ((h.of_within hp).not_surrounds_behind (hcv.of_within .refl hqv) hs).elim
      · exact ((h.of_within hp).not_surrounds_before (hvc.of_within hqv .refl) hs).elim
  · exact (h.not_surrounds_behind (hpq.of_within hcp .refl) hs).elim
  · exact (h.not_surrounds_before (hqp.of_within .refl hcp) hs).elim

/-- A leaf is known by its place. -/
theorem eq_of_leaf (h : t.Ordered) (hp : p.Within t) (hq : q.Within t) {l : Leaf}
    (hpl : p.leaf? = some l) (hql : q.leaf? = some l) : p = q := by
  have hlp : l ∈ p.fringe := by simp [fringe_of_leaf hpl]
  have hlq : l ∈ q.fringe := by simp [fringe_of_leaf hql]
  rcases hp.compare hq with h' | h' | h' | h'
  · exact h'.eq_of_leaf hql
  · exact (h'.eq_of_leaf hpl).symm
  · exact (Nat.lt_irrefl _ (h.start_lt h' hlp hlq)).elim
  · exact (Nat.lt_irrefl _ (h.start_lt h' hlq hlp)).elim

end Ordered

/-- The tree begins where its first leaf does, ends where its last leaf does, and both are
tokens. -/
structure Snug (t : Tree) : Prop where
  first : ∃ a ∈ t.fringe.head?, a.comment? = none ∧ a.span.start = t.span.start
  last : ∃ a ∈ t.fringe.getLast?, a.comment? = none ∧ a.span.stop = t.span.stop

/-- The tree begins where its first leaf does and ends where its last leaf does. -/
structure Tight (t : Tree) : Prop where
  first : ∃ l ∈ t.fringe.head?, l.span.start = t.span.start
  last : ∃ l ∈ t.fringe.getLast?, l.span.stop = t.span.stop

theorem Snug.tight (h : t.Snug) : t.Tight := by
  obtain ⟨a, ha, -, hsa⟩ := h.first
  obtain ⟨b, hb, -, hsb⟩ := h.last
  exact ⟨⟨a, ha, hsa⟩, ⟨b, hb, hsb⟩⟩

theorem tight_comment (c : Comment) : (comment c).Tight := ⟨⟨_, rfl, rfl⟩, ⟨_, rfl, rfl⟩⟩

/-- Trees stand where their leaves do. -/
theorem Ordered.stop_le_of_precedes (h : t.Ordered) (huv : t.Precedes u v) (hu : u.Tight)
    (hv : v.Tight) : u.span.stop.byte ≤ v.span.start.byte := by
  obtain ⟨l, hl, hls⟩ := hu.last
  obtain ⟨m, hm, hms⟩ := hv.first
  rw [← hls, ← hms]
  exact h.stop_le huv (List.mem_of_mem_getLast? hl) (List.mem_of_mem_head? hm)

/-- Trees of which the first and the last are snug make a snug tree. -/
theorem snug_rule {f : Option Field} {r : Rule} {ts : List Tree} (hu : u ∈ ts.head?)
    (hv : v ∈ ts.getLast?) (hsu : u.Snug) (hsv : v.Snug) :
    (rule f r ((Span.around ts).getD default) ts).Snug := by
  obtain ⟨ts, rfl⟩ := List.head?_eq_some_iff.mp hu
  obtain ⟨us, hus⟩ := List.getLast?_eq_some_iff.mp hv
  have hspan : Span.around (u :: ts) = some ⟨u.span.start, v.span.stop⟩ := by
    simp only [Span.around, Option.mem_def.mp hu, Option.mem_def.mp hv]
  obtain ⟨a, ha, hna, hsa⟩ := hsu.first
  obtain ⟨b, hb, hnb, hsb⟩ := hsv.last
  obtain ⟨as, has⟩ := List.head?_eq_some_iff.mp ha
  obtain ⟨bs, hbs⟩ := List.getLast?_eq_some_iff.mp hb
  refine ⟨⟨a, ?_, hna, ?_⟩, ⟨b, ?_, hnb, ?_⟩⟩
  · rw [fringe, fringeOf, has]
    rfl
  · rw [hspan]
    exact hsa
  · rw [fringe, hus, fringeOf_append, fringeOf, fringeOf, hbs, List.append_nil, ← List.append_assoc]
    exact List.getLast?_concat
  · rw [hspan]
    exact hsb

end Tree

namespace Node

/-- The last child of a node is the tree of its last part. -/
theorem getLast_trees (n : Node Lexeme) (ns : List (Node Lexeme)) :
    ∃ m ∈ n :: ns, (n.tree :: trees ns).getLast? = some m.tree := by
  induction ns generalizing n with
  | nil => exact ⟨n, List.mem_cons_self, rfl⟩
  | cons m ns ih =>
    obtain ⟨k, hk, hlast⟩ := ih m
    refine ⟨k, List.mem_cons_of_mem n hk, ?_⟩
    rw [trees, ← List.cons_append, List.getLast?_append, hlast]
    rfl

theorem snug_tree {n : Node Lexeme} (h : n.Every HasParts) : n.tree.Snug := by
  induction h with
  | @token f t a => exact ⟨⟨_, rfl, rfl, rfl⟩, ⟨_, rfl, rfl, rfl⟩⟩
  | @rule f r ns hns hs ih =>
    cases ns with
    | nil => exact (hns rfl).elim
    | cons n ns =>
      obtain ⟨m, hm, hlast⟩ := getLast_trees n ns
      exact Tree.snug_rule rfl hlast (ih n List.mem_cons_self) (ih m hm)

theorem tree_ne_comment (n : Node Lexeme) (c : Comment) : n.tree ≠ .comment c := by
  cases n with
  | token f t a => exact nofun
  | rule f r ns => cases ns <;> exact nofun

/-- Between the parts of a node a comment has tokens on both sides. -/
theorem surrounds_of_mem {n : Node Lexeme} {c : Comment} (hn : n.Every HasParts)
    (ho : n.tree.Ordered) (hc : .comment c ∈ n.tree.children) :
    n.tree.Surrounds c ∧ n.tree.children.head? ≠ some (.comment c) ∧
      n.tree.children.getLast? ≠ some (.comment c) := by
  cases n with
  | token f t a => cases hc
  | rule f r ns =>
    cases ns with
    | nil => cases hc
    | cons n ns =>
      have hparts := (every_rule.mp hn).2
      obtain ⟨m, hm, hlast⟩ := getLast_trees n ns
      obtain ⟨init, hinit⟩ := List.getLast?_eq_some_iff.mp hlast
      have hfirst : .comment c ∈ trees ns :=
        (List.mem_cons.mp hc).resolve_left fun h => n.tree_ne_comment c h.symm
      have hbehind : .comment c ∈ init := by
        have hmem : .comment c ∈ n.tree :: trees ns := hc
        rw [hinit, List.mem_append, List.mem_singleton] at hmem
        exact hmem.resolve_right fun h => m.tree_ne_comment c h.symm
      have hsplit : (rule f r (n :: ns)).tree.children = [n.tree] ++ trees ns := rfl
      have hbefore : (rule f r (n :: ns)).tree.Precedes n.tree (.comment c) :=
        .of_children hsplit List.mem_cons_self hfirst
      have hafter : (rule f r (n :: ns)).tree.Precedes (.comment c) m.tree :=
        .of_children hinit hbehind List.mem_cons_self
      obtain ⟨a, ha, hna, -⟩ := (snug_tree (hparts n List.mem_cons_self)).first
      obtain ⟨b, hb, hnb, -⟩ := (snug_tree (hparts m hm)).last
      have hamem : a ∈ n.tree.fringe := List.mem_of_mem_head? ha
      have hbmem : b ∈ m.tree.fringe := List.mem_of_mem_getLast? hb
      refine ⟨⟨⟨a, ?_, hna, ho.start_lt hbefore hamem List.mem_cons_self⟩,
        b, ?_, hnb, ho.start_lt hafter List.mem_cons_self hbmem⟩, ?_, ?_⟩
      · exact hbefore.subset (List.mem_append_left _ hamem)
      · exact hafter.subset (List.mem_append_right _ hbmem)
      · exact fun h => n.tree_ne_comment c (Option.some.inj h)
      · exact fun h => m.tree_ne_comment c (Option.some.inj (hlast.symm.trans h))

end Node

/-! ### The tree of a program -/

/-- How the comment `c` stands below `p` in the tree `t` of a file. -/
structure Tree.Placed (t p : Tree) (c : Comment) : Prop where
  /-- Only the file may be without a token on one side. -/
  surrounds : p = t ∨ p.Surrounds c
  smallest : ∀ q : Tree, q.Within t → q.Surrounds c → p.Within q
  /-- Only in the file may it be the first or last child. -/
  inner : p = t ∨ p.children.head? ≠ some (.comment c) ∧ p.children.getLast? ≠ some (.comment c)
  between : ∀ before after, p.children = before ++ .comment c :: after →
    (∀ u ∈ before, u.span.stop.byte ≤ c.span.start.byte) ∧
      ∀ u ∈ after, c.span.stop.byte ≤ u.span.start.byte

/-- What stands below something in the tree of a file has a leaf at each of its ends. -/
theorem SourceFile.tight_of_mem {s : SourceFile} {p u : Tree} (hp : p.Within s.tree)
    (hu : u ∈ p.children) : u.Tight := by
  rcases of_mem_children (s.functions.every_hasParts none) hp hu with ⟨c, rfl⟩ | ⟨m, hm, rfl⟩
  · exact Tree.tight_comment c
  · exact (Node.snug_tree hm).tight

theorem SourceFile.placed {s : SourceFile} {p : Tree} {c : Comment} (ho : s.tree.Ordered)
    (hp : p.Within s.tree) (hc : .comment c ∈ p.children) : s.tree.Placed p c := by
  have hnode : p = s.tree ∨ p.Surrounds c ∧ p.children.head? ≠ some (.comment c) ∧
      p.children.getLast? ≠ some (.comment c) := by
    rcases of_within (s.functions.every_hasParts none) hp with rfl | ⟨d, rfl⟩ | ⟨n, hn, rfl⟩
    · exact .inl rfl
    · cases hc
    · exact .inr (Node.surrounds_of_mem hn (ho.of_within hp) hc)
  refine ⟨hnode.imp_right And.left, fun q hq hs => ho.within_of_surrounds hp hc hq hs,
    hnode.imp_right And.right, fun before after hts => ⟨fun u hu => ?_, fun u hu => ?_⟩⟩
  · have hmem : u ∈ p.children := hts ▸ List.mem_append_left _ hu
    exact (ho.of_within hp).stop_le_of_precedes (.of_children hts hu List.mem_cons_self)
      (tight_of_mem hp hmem) (Tree.tight_comment c)
  · have hmem : u ∈ p.children := hts ▸ List.mem_append_right _ (List.mem_cons_of_mem _ hu)
    rw [List.append_cons] at hts
    exact (ho.of_within hp).stop_le_of_precedes
      (.of_children hts (List.mem_append_right _ (List.mem_singleton.mpr rfl)) hu)
      (Tree.tight_comment c) (tight_of_mem hp hmem)

theorem Tree.Ordered.nodup_comments {t : Tree} (h : t.Ordered) : t.comments.Nodup := by
  rw [comments_eq_filterMap]
  refine List.Pairwise.filterMap _ (R := fun l m => l ≠ m) ?_ ?_
  · rintro l m hne c hl d hm rfl
    cases l <;> cases m <;> simp_all [Leaf.comment?]
  · refine h.increasing.imp_of_mem fun hl _ hle heq => ?_
    have hlt := h.nonempty _ hl
    rw [heq] at hle hlt
    omega

/-- In the tree of a program each comment of the text stands once, as a child of the smallest node
around it, between the siblings that end before it and those that start after it. -/
theorem parseTree_placement {text : Bytes} {t : Tree} (h : parseTree text = .ok t) :
    (∀ (p : Tree) (c : Comment), p.Within t → .comment c ∈ p.children → t.Placed p c) ∧
      (∀ c ∈ t.comments, ∃ p : Tree, p.Within t ∧ .comment c ∈ p.children) ∧
      t.comments = Comment.scan 0 .start text ∧ t.comments.Nodup := by
  obtain ⟨s, hs, rfl⟩ := parse_of_parseTree h
  obtain ⟨mark, x, rfl, hm, hx⟩ := tiled_of_parse hs
  rw [← s.fringe_tree] at hx
  have ho : s.tree.Ordered := ⟨hx.start_lt_stop, hx.increasing⟩
  refine ⟨fun p c hp hc => SourceFile.placed ho hp hc, fun c hc => ?_, ?_, ho.nodup_comments⟩
  · rw [Tree.comments_eq_filterMap, List.mem_filterMap] at hc
    obtain ⟨l, hl, hlc⟩ := hc
    obtain ⟨u, hu, hul⟩ := Tree.mem_fringe.mp hl
    cases l with
    | token t w span => cases hlc
    | comment d =>
      cases hlc
      obtain rfl := Tree.eq_of_leaf_comment hul
      rcases hu.eq_or_child with heq | hp
      · cases heq
      · exact hp
  · have hmark : 47 ∉ mark := by
      rcases hm with rfl | rfl <;> decide
    rw [Comment.scan_of_not_mem .start x hmark, hx.scan, Tree.comments_eq_filterMap]

/-- Comments in front of a file, in a block, before an operator, and behind the last function. -/
theorem parseTree_placement_sum :
    ∃ t, parseTree (Bytes.ofString "//a\nfn f()->i32\x7b/*b*/1/*c*/+2/*d*/\x7d//e") = .ok t ∧
      (∀ (p : Tree) (c : Comment), p.Within t → .comment c ∈ p.children → t.Placed p c) ∧
      t.comments =
        Comment.scan 0 .start (Bytes.ofString "//a\nfn f()->i32\x7b/*b*/1/*c*/+2/*d*/\x7d//e") := by
  obtain ⟨t, ht⟩ : ∃ t, parseTree
      (Bytes.ofString "//a\nfn f()->i32\x7b/*b*/1/*c*/+2/*d*/\x7d//e") = .ok t :=
    exists_parseTree (by decide +kernel)
  obtain ⟨hplaced, -, hscan, -⟩ := parseTree_placement ht
  exact ⟨t, ht, hplaced, hscan⟩

end RueSyntax
