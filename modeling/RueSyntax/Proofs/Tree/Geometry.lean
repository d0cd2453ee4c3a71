import RueSyntax.Proofs.Tree.Placement

/-!
# The geometry of a tree

The spans of a tree fit together.  Children lie inside their parent one behind the other, a node
that a rule makes reaches from its first child to its last, and the file reaches to the end of the
text.  Every end of a span is a place of the text: its row counts the line feeds before it and its
column the bytes behind the last of them.

All of it comes from the leaves, which stand in the text one behind the other: what stands below
something in the tree of a file begins where its first leaf does and ends where its last leaf does
(`Tree.Tight`).
-/

namespace RueSyntax

/-! ### Rows and columns -/

namespace Position

/-- The place is one in the text, and its row and column are those of the byte there. -/
structure IsIn (p : Position) (text : Bytes) : Prop where
  inside : p.byte ≤ text.length
  row : p.row = (text.take p.byte).count Byte.newline
  column : p.column = ((text.take p.byte).reverse.takeWhile fun b => b != Byte.newline).length

/-- A column counts the bytes since the last line feed.  The text is taken from its end, because
that is where a walk over it has come last. -/
theorem column_after_reverse (t : Bytes) :
    (start.after t.reverse).column = (t.takeWhile fun b => b != Byte.newline).length := by
  induction t with
  | nil => rfl
  | cons b t ih =>
    rw [List.reverse_cons, after_append, after_cons, after_nil, next, List.takeWhile_cons]
    by_cases hb : b = Byte.newline
    · have heq : (b == Byte.newline) = true := beq_iff_eq.mpr hb
      have hne : ¬ (b != Byte.newline) = true := by simp [hb]
      rw [if_pos heq, if_neg hne]
      rfl
    · have heq : ¬ (b == Byte.newline) = true := by simpa using hb
      have hne : (b != Byte.newline) = true := by simpa using hb
      rw [if_neg heq, if_pos hne, List.length_cons, ← ih]

theorem column_start_after (t : Bytes) :
    (start.after t).column = (t.reverse.takeWhile fun b => b != Byte.newline).length := by
  have h := column_after_reverse t.reverse
  rwa [List.reverse_reverse] at h

/-- The place behind a part of a text, with what is in front of it. -/
theorem isIn_after (x y : Bytes) : (start.after x).IsIn (x ++ y) := by
  have hbyte : (start.after x).byte = x.length := byte_start_after x
  have htake : (x ++ y).take x.length = x := List.take_left
  refine ⟨?_, ?_, ?_⟩
  · rw [hbyte, List.length_append]
    omega
  · rw [hbyte, htake, row_after]
    exact Nat.zero_add _
  · rw [hbyte, htake]
    exact column_start_after x

end Position

/-- The ends of a leaf that stands in a text are places of the text. -/
theorem Leaf.StandsIn.isIn {l : Leaf} {text : Bytes} (h : l.StandsIn text) :
    l.span.start.IsIn text ∧ l.span.stop.IsIn text := by
  obtain ⟨before, after, rfl, hspan, -⟩ := h
  rw [hspan]
  constructor
  · exact Position.isIn_after before _
  · have hstop : (Span.of (Position.start.after before) l.text).stop =
        Position.start.after (before ++ l.text) := (Position.after_append _ _ _).symm
    rw [hstop, ← List.append_assoc]
    exact Position.isIn_after _ after

/-! ### Siblings -/

namespace Tree

variable {t p u v : Tree}

theorem Tight.exists_leaf (h : t.Tight) : ∃ l, l ∈ t.fringe := by
  obtain ⟨l, hl, -⟩ := h.first
  exact ⟨l, List.mem_of_mem_head? hl⟩

theorem fringeOf_sublist {ts us : List Tree} (h : ts.Sublist us) :
    (fringeOf ts).Sublist (fringeOf us) := by
  induction h with
  | slnil => exact List.Sublist.refl _
  | cons u _ ih => exact ih.trans (List.sublist_append_right u.fringe _)
  | cons_cons u _ ih => exact (List.Sublist.refl u.fringe).append ih

theorem Precedes.of_sublist (h : [u, v].Sublist p.children) : p.Precedes u v := by
  have hu : u ∈ p.children := h.subset List.mem_cons_self
  have hfringe := fringeOf_sublist h
  rw [fringeOf, fringeOf, fringeOf, List.append_nil] at hfringe
  rw [Precedes, fringe_of_children hu]
  exact hfringe

namespace Ordered

/-- A tree with leaves is not empty. -/
theorem start_lt_stop (h : t.Ordered) (ht : t.Tight) : t.span.start.byte < t.span.stop.byte := by
  obtain ⟨l, hl, hls⟩ := ht.first
  obtain ⟨m, hm, hms⟩ := ht.last
  obtain ⟨ls, hfringe⟩ := List.head?_eq_some_iff.mp hl
  have hl' : l ∈ t.fringe := List.mem_of_mem_head? hl
  have hm' : m ∈ t.fringe := List.mem_of_mem_getLast? hm
  have hlt : l.span.start.byte < l.span.stop.byte := h.nonempty l hl'
  have hle : l.span.stop.byte ≤ m.span.stop.byte := by
    rw [hfringe, List.mem_cons] at hm'
    rcases hm' with rfl | hmem
    · exact Nat.le_refl _
    · have hincreasing := h.increasing
      rw [hfringe, List.pairwise_cons] at hincreasing
      have hbefore : l.span.stop.byte ≤ m.span.start.byte := hincreasing.1 m hmem
      have hmlt := h.nonempty m (List.mem_of_mem_getLast? hm)
      omega
  rw [← hls, ← hms]
  omega

/-- Siblings stand one behind the other. -/
theorem pairwise_children (h : t.Ordered) (hp : p.Within t) (htight : ∀ u ∈ p.children, u.Tight) :
    p.children.Pairwise fun u v =>
      u.span.start.byte < v.span.start.byte ∧ u.span.stop.byte ≤ v.span.start.byte := by
  refine List.pairwise_iff_forall_sublist.mpr fun {u v} huv => ?_
  have hu : u ∈ p.children := huv.subset List.mem_cons_self
  have hv : v ∈ p.children := huv.subset (List.mem_cons_of_mem u List.mem_cons_self)
  have hordered := h.of_within hp
  have hle := hordered.stop_le_of_precedes (.of_sublist huv) (htight u hu) (htight v hv)
  have hlt := (hordered.of_within (.of_child hu)).start_lt_stop (htight u hu)
  exact ⟨by omega, hle⟩

end Ordered

theorem ends_of_around {ts : List Tree} {s : Span} (h : Span.around ts = some s) :
    ∃ u ∈ ts.head?, ∃ v ∈ ts.getLast?, s.start = u.span.start ∧ s.stop = v.span.stop := by
  unfold Span.around at h
  split at h
  · next u v hu hv =>
    cases h
    exact ⟨u, hu, v, hv, rfl, rfl⟩
  · cases h

/-- Trees that follow one another lie in the span around them. -/
theorem inside_around {ts : List Tree} {s : Span} (h : Span.around ts = some s)
    (hlt : ∀ u ∈ ts, u.span.start.byte < u.span.stop.byte)
    (hts : ts.Pairwise fun u v =>
      u.span.start.byte < v.span.start.byte ∧ u.span.stop.byte ≤ v.span.start.byte) :
    ∀ u ∈ ts, s.start.byte ≤ u.span.start.byte ∧ u.span.stop.byte ≤ s.stop.byte := by
  intro u hu
  obtain ⟨first, hfirst, last, hlast, hstart, hstop⟩ := ends_of_around h
  obtain ⟨rest, hcons⟩ := List.head?_eq_some_iff.mp hfirst
  obtain ⟨init, hinit⟩ := List.getLast?_eq_some_iff.mp hlast
  have hlastlt := hlt last (List.mem_of_mem_getLast? hlast)
  rw [hstart, hstop]
  constructor
  · rw [hcons] at hu hts
    rcases List.mem_cons.mp hu with rfl | hrest
    · exact Nat.le_refl _
    · exact Nat.le_of_lt ((List.pairwise_cons.mp hts).1 u hrest).1
  · rw [hinit] at hu hts
    rcases List.mem_append.mp hu with hbefore | hmem
    · have hle := ((List.pairwise_append.mp hts).2.2 u hbefore last List.mem_cons_self).2
      omega
    · obtain rfl := List.mem_singleton.mp hmem
      exact Nat.le_refl _

end Tree

/-! ### The tree of a file -/

namespace SourceFile

variable {s : SourceFile} {p u : Tree}

theorem start_lt_stop (ho : s.tree.Ordered) (hp : p.Within s.tree) (hu : u ∈ p.children) :
    u.span.start.byte < u.span.stop.byte :=
  (ho.of_within ((Tree.Within.of_child hu).trans hp)).start_lt_stop (tight_of_mem hp hu)

theorem pairwise_children (ho : s.tree.Ordered) (hp : p.Within s.tree) :
    p.children.Pairwise fun u v =>
      u.span.start.byte < v.span.start.byte ∧ u.span.stop.byte ≤ v.span.start.byte :=
  ho.pairwise_children hp fun _ hu => tight_of_mem hp hu

/-- What is not the file has the places of its leaves. -/
theorem places_of_mem {text : Bytes} (hs : ∀ l ∈ s.tree.fringe, l.StandsIn text)
    (hp : p.Within s.tree) (hu : u ∈ p.children) :
    u.span.start.IsIn text ∧ u.span.stop.IsIn text := by
  have hwithin : u.Within s.tree := .trans (.of_child hu) hp
  have hfringe := hwithin.fringe_infix.subset
  obtain ⟨⟨l, hl, hls⟩, ⟨m, hm, hms⟩⟩ := tight_of_mem hp hu
  have hfirst := (hs l (hfringe (List.mem_of_mem_head? hl))).isIn.1
  have hlast := (hs m (hfringe (List.mem_of_mem_getLast? hm))).isIn.2
  rw [hls] at hfirst
  rw [hms] at hlast
  exact ⟨hfirst, hlast⟩

/-- A node of a file that a rule makes has the span around its children. -/
theorem around_children (hp : p.Within s.tree) (hne : p ≠ s.tree) (hl : p.leaf? = none) :
    Span.around p.children = some p.span := by
  rcases of_within (s.functions.every_hasParts none) hp with rfl | ⟨c, rfl⟩ | ⟨n, hn, rfl⟩
  · exact (hne rfl).elim
  · cases hl
  · cases n with
    | token f t a => cases hl
    | rule f r ns =>
      cases ns with
      | nil => exact ((Node.every_rule.mp hn).1 rfl).elim
      | cons n ns =>
        obtain ⟨span, hspan⟩ := Span.exists_around (List.cons_ne_nil n.tree (Node.trees ns))
        have hround : (Node.rule f r (n :: ns)).tree.span = span := by
          show (Span.around (n.tree :: Node.trees ns)).getD default = span
          rw [hspan]
          rfl
        rw [hround]
        exact hspan

/-- Children lie in the span around them. -/
theorem inside_children (ho : s.tree.Ordered) (hp : p.Within s.tree) {span : Span}
    (hspan : Span.around p.children = some span) (hu : u ∈ p.children) :
    span.start.byte ≤ u.span.start.byte ∧ u.span.stop.byte ≤ span.stop.byte :=
  Tree.inside_around hspan (fun _ hv => start_lt_stop ho hp hv) (pairwise_children ho hp) u hu

/-- A file begins with its first child. -/
theorem start_of_head (hu : u ∈ s.tree.children.head?) : s.tree.span.start = u.span.start := by
  have hhead : s.children.head? = some u := hu
  show (s.children.head?.map fun t => t.span.start).getD s.stop = u.span.start
  rw [hhead]
  rfl

/-- A file without children is empty. -/
theorem start_of_nil (h : s.tree.children = []) : s.tree.span.start = s.tree.span.stop := by
  have hchildren : s.children = [] := h
  show (s.children.head?.map fun t => t.span.start).getD s.stop = s.stop
  rw [hchildren]
  rfl

end SourceFile

/-- The leaves of the tree of a program take its text apart. -/
theorem lossless_of_parse_eq_ok {text : Bytes} {s : SourceFile} (h : parse text = .ok s) :
    Lossless text s.tree.fringe := by
  obtain ⟨mark, x, rfl, hm, hx⟩ := tiled_of_parse h
  rw [s.fringe_tree]
  exact lossless_of_tiled hm hx

theorem Lossless.ordered {text : Bytes} {t : Tree} (h : Lossless text t.fringe) : t.Ordered :=
  ⟨h.nonempty, h.increasing⟩

/-- A file ends where its text does. -/
theorem stop_of_parse_eq_ok {text : Bytes} {s : SourceFile} (h : parse text = .ok s) :
    s.tree.span.stop = Position.start.after text := by
  obtain ⟨mark, x, r, rfl, -, hr, hf⟩ := reads_of_parse h
  have hhere : r.here = Position.start.after (mark ++ x) := by
    rw [hr.here, Position.after_append]
    rfl
  obtain ⟨state, comments, consumed, here⟩ := r
  cases state with
  | top fs =>
    cases hf
    exact hhere
  | _ => cases hf

/-! ### The tree of a program -/

/-- How the nodes of the tree `t` lie in the text. -/
structure Tree.Geometry (text : Bytes) (t : Tree) : Prop where
  inside : ∀ p u : Tree, p.Within t → u ∈ p.children →
    p.span.start.byte ≤ u.span.start.byte ∧ u.span.stop.byte ≤ p.span.stop.byte
  apart : ∀ p : Tree, p.Within t → p.children.Pairwise fun u v =>
    u.span.start.byte < v.span.start.byte ∧ u.span.stop.byte ≤ v.span.start.byte
  /-- Only the file may be longer than its children, or empty. -/
  around : ∀ p : Tree, p.Within t → p ≠ t → p.leaf? = none →
    (∃ u ∈ p.children.head?, ∃ v ∈ p.children.getLast?,
      p.span.start = u.span.start ∧ p.span.stop = v.span.stop) ∧
      p.span.start.byte < p.span.stop.byte
  first : ∀ u ∈ t.children.head?, t.span.start = u.span.start
  empty : t.children = [] → t.span.start.byte = text.length
  stop : t.span.stop.byte = text.length
  places : ∀ u : Tree, u.Within t → u.span.start.IsIn text ∧ u.span.stop.IsIn text

/-- The tree of a program fits its text: its nodes nest, they are as long as their children, and
all their places are counted right. -/
theorem parseTree_geometry {text : Bytes} {t : Tree} (h : parseTree text = .ok t) :
    t.kind = .rule .sourceFile ∧ t.Geometry text := by
  obtain ⟨s, hs, rfl⟩ := parse_of_parseTree h
  have hstop : s.tree.span.stop = Position.start.after text := stop_of_parse_eq_ok hs
  have hlength : s.tree.span.stop.byte = text.length := by
    rw [hstop, Position.byte_start_after]
  have hend : s.tree.span.stop.IsIn text := by
    have hin := Position.isIn_after text []
    rwa [List.append_nil, ← hstop] at hin
  have hstands := (lossless_of_parse_eq_ok hs).longest
  have ho : s.tree.Ordered := (lossless_of_parse_eq_ok hs).ordered
  have hfirst : ∀ u ∈ s.tree.children.head?, s.tree.span.start = u.span.start :=
    fun _ hu => SourceFile.start_of_head hu
  refine ⟨rfl, ?inside, fun p hp => SourceFile.pairwise_children ho hp, ?around, hfirst,
    fun hnil => (SourceFile.start_of_nil hnil ▸ hlength), hlength, ?places⟩
  case inside =>
    intro p u hp hu
    obtain ⟨span, hspan⟩ := Span.exists_around (List.ne_nil_of_mem hu)
    have hin := SourceFile.inside_children ho hp hspan hu
    by_cases hroot : p = s.tree
    · -- the file may go on behind its last child
      subst hroot
      obtain ⟨v, hv, -, -, hstart, -⟩ := Tree.ends_of_around hspan
      have hinside := (SourceFile.places_of_mem hstands hp hu).2.inside
      rw [hfirst v hv, ← hstart]
      exact ⟨hin.1, by omega⟩
    · have hleaf : p.leaf? = none := by
        cases p with
        | rule f r span ts => rfl
        | _ => cases hu
      have haround := SourceFile.around_children hp hroot hleaf
      rw [hspan, Option.some.injEq] at haround
      rwa [haround] at hin
  case around =>
    intro p hp hne hleaf
    obtain ⟨q, hq, hpq⟩ := hp.eq_or_child.resolve_left hne
    exact ⟨Tree.ends_of_around (SourceFile.around_children hp hne hleaf),
      SourceFile.start_lt_stop ho hq hpq⟩
  case places =>
    intro u hu
    rcases hu.eq_or_child with rfl | ⟨p, hp, hup⟩
    · refine ⟨?_, hend⟩
      cases hchildren : s.tree.children with
      | nil =>
        rw [SourceFile.start_of_nil hchildren]
        exact hend
      | cons v vs =>
        have hv : v ∈ s.tree.children := hchildren ▸ List.mem_cons_self
        rw [hfirst v (by rw [hchildren]; rfl)]
        exact (SourceFile.places_of_mem hstands .refl hv).1
    · exact SourceFile.places_of_mem hstands hp hup

/-- A mark, a comment over two rows, and a blank row at the end. -/
theorem parseTree_geometry_rows :
    ∃ t, parseTree (byteOrderMark ++ Bytes.ofString "fn f()->()\x7b/*\n*/\r\x7d\n\n") = .ok t ∧
      t.Geometry (byteOrderMark ++ Bytes.ofString "fn f()->()\x7b/*\n*/\r\x7d\n\n") := by
  obtain ⟨t, ht⟩ : ∃ t, parseTree (byteOrderMark ++
      Bytes.ofString "fn f()->()\x7b/*\n*/\r\x7d\n\n") = .ok t :=
    exists_parseTree (by decide +kernel)
  exact ⟨t, ht, (parseTree_geometry ht).2⟩

end RueSyntax
