import RueSyntax.Proofs.Highlight.Captures
import RueSyntax.Proofs.Tree.Kinds
import RueSyntax.Proofs.Tree.Parts

/-!
# The captures of the query for the language

Every kind of node has at most one pattern of its own (`Kind.number`), and an identifier may have
one more by the part that it plays (`Kind.role`).  Captured nodes lie apart, but for what is in a
unit literal (`SourceFile.eq_or_inUnit`), so the order of captures is strict.

`Tree.Matched` says what the patterns are in the words of the query file, by names alone.  Comments
make no difference to the part that an identifier plays: it can be told by its place among the
siblings that are no comments (`SourceFile.isPart_iff_isNth`).
-/

namespace RueSyntax

namespace Kind

theorem forall_of_all {P : Kind → Prop} (h : ∀ k ∈ all, P k) (hc : ∀ c, P (.comment c)) :
    ∀ k, P k
  | token t => h _ (mem_all_token t)
  | rule r => h _ (mem_all_rule r)
  | comment c => hc c

/-- A kind is known by its name, if it is known whether that is its text. -/
theorem name_injective : ∀ k l : Kind, k.isNamed = l.isNamed → k.name = l.name → k = l := by
  have hcomment : ∀ k ∈ all, ∀ c, k.name ≠ CommentKind.name c := by
    intro k hk c
    cases c
    · exact (by decide +kernel : ∀ k ∈ all, k.name ≠ CommentKind.line.name) k hk
    · exact (by decide +kernel : ∀ k ∈ all, k.name ≠ CommentKind.block.name) k hk
  have hcomments : ∀ c d : CommentKind, c.name = d.name → c = d := by
    intro c d
    cases c <;> cases d <;> decide
  refine forall_of_all (fun k hk => forall_of_all (fun l hl => ?_) fun d _ h => ?_)
    fun c => forall_of_all (fun l hl _ h => ?_) fun d _ h => ?_
  · exact eq_of_name hk hl
  · exact (hcomment k hk d h).elim
  · exact (hcomment l hl c h.symm).elim
  · exact congrArg Kind.comment (hcomments c d h)

/-- The number of the pattern that is about nodes of this kind wherever they stand. -/
def number (k : Kind) : Option Nat := Query.rue.patterns.findIdx? fun p => p.fits k

/-- The number of the pattern that is about the name in a node of this kind. -/
def role : Kind → Option Nat
  | rule .functionItem => some 5
  | rule .callExpression => some 6
  | rule .parameter => some 7
  | _ => none

/-- Only one pattern is about a kind. -/
theorem number_of_fits : ∀ (k : Kind), ∀ p ∈ Query.rue.patterns.zipIdx, p.1.fits k = true →
    k.number = some p.2 :=
  forall_of_all (by decide +kernel) fun c => by cases c <;> decide +kernel

/-- The patterns about parts are about names. -/
theorem role_of_part {r : Rule} {f : Field} {k : Kind} {c : Capture} {n : Nat}
    (h : (Pattern.part r f k c, n) ∈ Query.rue.patterns.zipIdx) :
    k = .token .identifier ∧ (rule r).role = some n := by
  simp only [Query.patterns, Query.rue, List.flatten_cons, List.flatten_nil, List.cons_append,
    List.nil_append, List.zipIdx_cons, List.zipIdx_nil, List.mem_cons, Prod.mk.injEq,
    reduceCtorEq, false_and, false_or, Pattern.part.injEq, List.not_mem_nil, or_false] at h
  rcases h with ⟨⟨rfl, -, rfl, -⟩, rfl⟩ | ⟨⟨rfl, -, rfl, -⟩, rfl⟩ | ⟨⟨rfl, -, rfl, -⟩, rfl⟩
  all_goals exact ⟨rfl, rfl⟩

theorem role_mem {k : Kind} {n : Nat} (h : k.role = some n) : n ∈ [5, 6, 7] := by
  unfold role at h
  split at h <;> cases h <;> decide

/-- The rules of captured nodes have no other phrases among their parts. -/
theorem isOpen_of_number {r : Rule} (h : (rule r).number.isSome = true) : r.isOpen = false := by
  revert h
  cases r <;> decide +kernel

end Kind

namespace Rule

/-- The words of types and truth values have no pattern; the nodes around them do. -/
theorem number_of_takes {r : Rule} (hr : r.isWord = true) : ∀ k : Kind, r.takes k = true →
    k.number = none ∧ (Kind.rule r).number.isSome = true := by
  cases r with
  | primitiveType =>
    exact Kind.forall_of_all (by decide +kernel) fun c => by cases c <;> decide +kernel
  | booleanLiteral =>
    exact Kind.forall_of_all (by decide +kernel) fun c => by cases c <;> decide +kernel
  | _ => cases hr

/-- What is in a unit literal is a bracket or a comment. -/
theorem number_of_unit : ∀ k : Kind, unitLiteral.takes k = true →
    k.number = some 0 ∧ k = .comment .line ∨ k.number = some 1 ∧ k = .comment .block ∨
      k.number = some 12 ∧
        (k = .token (.mark .openParen) ∨ k = .token (.mark .closeParen)) :=
  Kind.forall_of_all (by decide +kernel) fun c => by cases c <;> decide +kernel

/-- A rule that has no other phrases among its parts has leaves below it. -/
theorem ne_rule_of_takes {r : Rule} {k : Kind} (hr : r.isOpen = false) (h : r.takes k = true) :
    ∀ i, k ≠ .rule i := by
  rintro i rfl
  cases r with
  | primitiveType => cases h
  | booleanLiteral => cases h
  | unitLiteral => cases h
  | _ => cases hr

end Rule

/-! ### Patterns and numbers -/

namespace Tree

variable {t u v : Tree} {n m : Nat}

/-- The node is what the pattern `n` is about: by its kind, or as the name in its parent. -/
def Numbered (t u : Tree) (n : Nat) : Prop :=
  u.kind.number = some n ∨ u.kind = .token .identifier ∧
    ∃ p : Tree, p.Within t ∧ u ∈ p.children ∧ p.kind.role = some n

theorem numbered_of_matches {p : Pattern} (hp : Query.rue.patterns[n]? = some p)
    (h : p.Matches t u) : t.Numbered u n := by
  have hmem : (p, n) ∈ Query.rue.patterns.zipIdx := List.mem_zipIdx_iff_getElem?.mpr hp
  cases p with
  | kind k c => exact .inl (u.kind.number_of_fits _ hmem h.2)
  | anyOf ts c => exact .inl (u.kind.number_of_fits _ hmem h.2)
  | part r f k c =>
    obtain ⟨⟨p, hpt, hr, hu, -⟩, hk⟩ := h
    obtain ⟨hname, hrole⟩ := Kind.role_of_part hmem
    exact .inr ⟨hk.trans hname, p, hpt, hu, hr ▸ hrole⟩

theorem Numbered.isSome (h : t.Numbered u n) : u.kind.number.isSome = true := by
  rcases h with h | ⟨h, -⟩
  · rw [h]
    rfl
  · rw [h]
    decide +kernel

/-- A node has one part to play. -/
theorem role_unique (ho : t.Ordered) (hl : t.Leafy) {p q : Tree} (hp : p.Within t)
    (hq : q.Within t) (hup : u ∈ p.children) (huq : u ∈ q.children) (hn : p.kind.role = some n)
    (hm : q.kind.role = some m) : n = m := by
  rw [ho.parent_unique hl hp hq hup huq, hm] at hn
  exact (Option.some.inj hn).symm

/-- Two patterns about one node are the one about identifiers and the one about its part. -/
theorem Numbered.eq_or (ho : t.Ordered) (hl : t.Leafy) (hn : t.Numbered u n)
    (hm : t.Numbered u m) : n = m ∨ u.kind = .token .identifier ∧
      (n ∈ [5, 6, 7] ∧ m = 14 ∨ m ∈ [5, 6, 7] ∧ n = 14) := by
  have hname : (Kind.token .identifier).number = some 14 := by decide +kernel
  rcases hn with hn | ⟨hk, p, hp, hup, hn⟩ <;> rcases hm with hm | ⟨hk', q, hq, huq, hm⟩
  · exact .inl (Option.some.inj (hn.symm.trans hm))
  · rw [hk', hname] at hn
    exact .inr ⟨hk', .inr ⟨Kind.role_mem hm, (Option.some.inj hn).symm⟩⟩
  · rw [hk, hname] at hm
    exact .inr ⟨hk, .inl ⟨Kind.role_mem hn, (Option.some.inj hm).symm⟩⟩
  · exact .inl (role_unique ho hl hp hq hup huq hn hm)

/-- The tree `u` is one of the brackets of the unit literal `v`, or a comment between them. -/
structure InUnit (u v : Tree) : Prop where
  unit : v.kind = .rule .unitLiteral
  child : u ∈ v.children
  part : Rule.unitLiteral.takes u.kind = true

namespace InUnit

theorem pattern_literal (h : u.InUnit v) (hv : t.Numbered v m) : m = 10 := by
  have hten : (Kind.rule .unitLiteral).number = some 10 := by decide +kernel
  rcases hv with hv | ⟨hk, -⟩
  · rw [h.unit, hten] at hv
    exact (Option.some.inj hv).symm
  · cases h.unit.symm.trans hk

theorem pattern_part (h : u.InUnit v) (hu : t.Numbered u n) :
    n = 0 ∧ u.kind = .comment .line ∨ n = 1 ∧ u.kind = .comment .block ∨
      n = 12 ∧ (u.kind = .token (.mark .openParen) ∨ u.kind = .token (.mark .closeParen)) := by
  have hpart := h.part
  rcases hu with hu | ⟨hk, -⟩
  · have hnumber := Rule.number_of_unit u.kind hpart
    simp only [hu, Option.some.injEq] at hnumber
    exact hnumber
  · rw [hk] at hpart
    cases hpart

/-- A unit literal has another pattern than what is in it. -/
theorem ne (h : u.InUnit v) (hu : t.Numbered u n) (hv : t.Numbered v m) : n ≠ m := by
  have hm := h.pattern_literal hv
  have hn := h.pattern_part hu
  omega

end InUnit

end Tree

theorem Highlight.numbered_of_mem {t : Tree} {x : Highlight}
    (hx : x ∈ Query.rue.highlights t) : x.node.Within t ∧ t.Numbered x.node x.pattern := by
  obtain ⟨p, hp, -, hmatches⟩ := Query.mem_highlights.mp hx
  exact ⟨hmatches.within, Tree.numbered_of_matches hp hmatches⟩

/-! ### Captured nodes lie apart -/

/-- The byte at index `i` is in the span. -/
def Span.Covers (s : Span) (i : Nat) : Prop := s.start.byte ≤ i ∧ i < s.stop.byte

/-- Some byte is in both spans. -/
def Span.Overlaps (s r : Span) : Prop := ∃ i, s.Covers i ∧ r.Covers i

namespace SourceFile

variable {s : SourceFile} {u v : Tree} {n m : Nat}

/-- The file has no pattern, so a captured node has a leaf at each of its ends. -/
theorem tight_of_number (hu : u.Within s.tree) (h : u.kind.number.isSome = true) : u.Tight := by
  rcases hu.eq_or_child with rfl | ⟨p, hp, hup⟩
  · have hnone : s.tree.kind.number.isSome = false := by
      show (Kind.rule .sourceFile).number.isSome = false
      decide +kernel
    rw [hnone] at h
    cases h
  · exact tight_of_mem hp hup

/-- Below a captured node another one stands only in a unit literal. -/
theorem eq_or_inUnit_of_within (hv : v.Within s.tree) (huv : u.Within v)
    (hnu : u.kind.number.isSome = true) (hnv : v.kind.number.isSome = true) :
    u = v ∨ u.InUnit v := by
  cases huv with
  | refl => exact .inl rfl
  | @child c _ hc huc =>
    cases v with
    | rule f r span ts =>
      have hopen : r.isOpen = false := Kind.isOpen_of_number hnv
      have htakes : r.takes c.kind = true := takes_of_mem hv hc rfl
      obtain rfl : u = c := by
        cases c with
        | rule f' i span' us => exact (Rule.ne_rule_of_takes hopen htakes i rfl).elim
        | _ => exact huc.eq_of_leaf rfl
      by_cases hword : r.isWord = true
      · rw [(Rule.number_of_takes hword u.kind htakes).1] at hnu
        cases hnu
      · obtain rfl : r = .unitLiteral := by
          cases r with
          | primitiveType => exact (hword rfl).elim
          | booleanLiteral => exact (hword rfl).elim
          | unitLiteral => rfl
          | _ => cases hopen
        exact .inr ⟨rfl, hc, htakes⟩
    | _ => cases hc

/-- Captured nodes lie apart, but for what is in a unit literal. -/
theorem eq_or_inUnit (ho : s.tree.Ordered) (hu : u.Within s.tree) (hv : v.Within s.tree)
    (hnu : u.kind.number.isSome = true) (hnv : v.kind.number.isSome = true)
    (h : u.span.Overlaps v.span) : u = v ∨ u.InUnit v ∨ v.InUnit u := by
  obtain ⟨i, ⟨hui, hiu⟩, hvi, hiv⟩ := h
  have htu : u.Tight := tight_of_number hu hnu
  have htv : v.Tight := tight_of_number hv hnv
  rcases hu.compare hv with huv | hvu | huv | hvu
  · exact (eq_or_inUnit_of_within hv huv hnu hnv).imp_right .inl
  · exact (eq_or_inUnit_of_within hu hvu hnv hnu).imp Eq.symm .inr
  · have hle : u.span.stop.byte ≤ v.span.start.byte := ho.stop_le_of_precedes huv htu htv
    omega
  · have hle : v.span.stop.byte ≤ u.span.start.byte := ho.stop_le_of_precedes hvu htv htu
    omega

/-- Two nodes with one pattern that begin at one place are one. -/
theorem eq_of_start (ho : s.tree.Ordered) (hu : u.Within s.tree) (hv : v.Within s.tree)
    (hnu : s.tree.Numbered u n) (hnv : s.tree.Numbered v n)
    (h : u.span.start.byte = v.span.start.byte) : u = v := by
  have hltu := (ho.of_within hu).start_lt_stop (tight_of_number hu hnu.isSome)
  have hltv := (ho.of_within hv).start_lt_stop (tight_of_number hv hnv.isSome)
  have hoverlap : u.span.Overlaps v.span :=
    ⟨u.span.start.byte, ⟨Nat.le_refl _, hltu⟩, h ▸ Nat.le_refl _, h ▸ hltv⟩
  rcases eq_or_inUnit ho hu hv hnu.isSome hnv.isSome hoverlap with heq | hunit | hunit
  · exact heq
  · exact (hunit.ne hnu hnv rfl).elim
  · exact (hunit.ne hnv hnu rfl).elim

/-- The captures of the query for the language are in a strict order. -/
theorem pairwise_strictlyBefore (ho : s.tree.Ordered) :
    (Query.rue.highlights s.tree).Pairwise Highlight.StrictlyBefore := by
  refine Query.rue.pairwise_strictlyBefore ho s.leafy fun x hx y hy hpattern hstart => ?_
  obtain ⟨hxt, hnx⟩ := Highlight.numbered_of_mem hx
  obtain ⟨hyt, hny⟩ := Highlight.numbered_of_mem hy
  exact eq_of_start ho hxt hyt hnx (hpattern ▸ hny) hstart

end SourceFile

/-! ### The patterns by their names -/

namespace Tree

variable {t u : Tree}

/-- The node is of the named kind with this name. -/
def Is (u : Tree) (name : String) : Prop := u.isNamed = true ∧ u.kind.name = name

/-- The node is of a kind without a name, and its text is one of these. -/
def IsOneOf (u : Tree) (texts : List String) : Prop := u.isNamed = false ∧ u.kind.name ∈ texts

/-- The node is the identifier in this field of a node of `t` with this name. -/
def IsPart (t : Tree) (parent field : String) (u : Tree) : Prop :=
  u.Is "identifier" ∧ ∃ p : Tree, p.Within t ∧ p.Is parent ∧ u ∈ p.children ∧
    u.field.map Field.label = some field

/-- The node stands at this place in a node of `t` with this name, comments left out. -/
def IsNth (t : Tree) (parent : String) (i : Nat) (u : Tree) : Prop :=
  ∃ p : Tree, p.Within t ∧ p.Is parent ∧ p.parts[i]? = some u

/-- What the patterns of the query say of a node `u` of the tree `t`, by their numbers. -/
def Matched (t u : Tree) : Nat → Prop
  | 0 => u.Is "line_comment"
  | 1 => u.Is "block_comment"
  | 2 => u.IsOneOf ["fn", "let", "if", "else", "while"]
  | 3 => u.Is "primitive_type"
  | 4 => u.Is "unit_type"
  | 5 => t.IsPart "function_item" "name" u
  | 6 => t.IsPart "call_expression" "function" u
  | 7 => t.IsPart "parameter" "name" u
  | 8 => u.Is "integer_literal"
  | 9 => u.Is "boolean_literal"
  | 10 => u.Is "unit_literal"
  | 11 => u.IsOneOf ["+", "-", "*", "/", "%", "==", "!=", "<", "<=", ">", ">=", "=", "->"]
  | 12 => u.IsOneOf ["(", ")", "\x7b", "\x7d"]
  | 13 => u.IsOneOf [",", ":", ";"]
  | 14 => u.Is "identifier"
  | _ => False

theorem is_iff {k : Kind} (hk : k.isNamed = true) : u.Is k.name ↔ u.kind = k := by
  constructor
  · rintro ⟨hn, hname⟩
    exact Kind.name_injective _ _ (hn.trans hk.symm) hname
  · rintro rfl
    exact ⟨hk, rfl⟩

theorem isOneOf_iff {ts : List Terminal} (hts : ∀ s ∈ ts, s.isNamed = false) :
    u.IsOneOf (ts.map Terminal.name) ↔ ∃ s ∈ ts, u.kind = .token s := by
  unfold IsOneOf
  rw [List.mem_map]
  constructor
  · rintro ⟨hn, s, hs, hname⟩
    exact ⟨s, hs, Kind.name_injective _ _ (hn.trans (hts s hs).symm) hname.symm⟩
  · rintro ⟨s, hs, hk⟩
    refine ⟨?_, s, hs, ?_⟩
    · rw [isNamed, hk]
      exact hts s hs
    · rw [hk]
      rfl

theorem is_rule_iff {r : Rule} : u.Is r.name ↔ u.kind = .rule r := is_iff (k := .rule r) rfl

theorem is_identifier_iff : u.Is "identifier" ↔ u.kind = .token .identifier :=
  is_iff (k := .token .identifier) rfl

theorem isPart_iff {r : Rule} {f : Field} :
    t.IsPart r.name f.label u ↔ t.HasPart r f u ∧ u.kind = .token .identifier := by
  simp only [IsPart, HasPart, is_identifier_iff, is_rule_iff, Field.map_label_eq_some]
  exact and_comm

end Tree

namespace Pattern

variable {t u : Tree} {c : Capture}

theorem matches_kind_iff {k : Kind} (hk : k.isNamed = true) :
    (kind k c).Matches t u ↔ u.Within t ∧ u.Is k.name := by
  rw [Tree.is_iff hk]
  exact and_congr_right' beq_iff_eq

theorem matches_anyOf_iff {ts : List Terminal} (hts : ∀ s ∈ ts, s.isNamed = false) :
    (anyOf ts c).Matches t u ↔ u.Within t ∧ u.IsOneOf (ts.map Terminal.name) := by
  rw [Tree.isOneOf_iff hts]
  refine and_congr_right' ?_
  simp only [fits, List.any_eq_true, beq_iff_eq]

theorem matches_part_iff {r : Rule} {f : Field} :
    (part r f (.token .identifier) c).Matches t u ↔
      u.Within t ∧ t.IsPart r.name f.label u := by
  rw [Tree.isPart_iff]
  exact ⟨fun h => ⟨h.within, h⟩, And.right⟩

end Pattern

/-- The patterns of the query say what their numbers say. -/
theorem Tree.matched_iff {t u : Tree} {n : Nat} :
    (∃ p, Query.rue.patterns[n]? = some p ∧ p.Matches t u) ↔ u.Within t ∧ t.Matched u n := by
  have hpattern : ∀ {n : Nat} {p : Pattern}, Query.rue.patterns[n]? = some p →
      ((∃ r, Query.rue.patterns[n]? = some r ∧ r.Matches t u) ↔ p.Matches t u) := by
    intro n p hp
    rw [hp]
    exact ⟨fun ⟨r, hr, h⟩ => Option.some.inj hr ▸ h, fun h => ⟨p, rfl, h⟩⟩
  match n with
  | 0 | 1 | 3 | 4 | 8 | 9 | 10 | 14 => exact (hpattern rfl).trans (Pattern.matches_kind_iff rfl)
  | 2 | 11 | 12 | 13 => exact (hpattern rfl).trans (Pattern.matches_anyOf_iff (by decide))
  | 5 | 6 | 7 => exact (hpattern rfl).trans Pattern.matches_part_iff
  | n + 15 =>
    refine ⟨fun ⟨p, hp, _⟩ => ?_, fun h => h.2.elim⟩
    cases hp

/-- An identifier plays a part if it stands in the place of the name, whatever comments stand
before it. -/
theorem SourceFile.isPart_iff_isNth {s : SourceFile} {u : Tree} {r : Rule} {f : Field} {i : Nat}
    (hn : r.nameIn = some (f, i)) : s.tree.IsPart r.name f.label u ↔ s.tree.IsNth r.name i u := by
  rw [Tree.isPart_iff]
  constructor
  · rintro ⟨⟨p, hp, hr, hu⟩, hk⟩
    exact ⟨p, hp, Tree.is_rule_iff.mpr hr, (part_iff hp hr hn).mpr ⟨hu.1, hu.2, hk⟩⟩
  · rintro ⟨p, hp, hr, hu⟩
    obtain ⟨hmem, hf, hk⟩ := (part_iff hp (Tree.is_rule_iff.mp hr) hn).mp hu
    exact ⟨⟨p, hp, Tree.is_rule_iff.mp hr, hmem, hf⟩, hk⟩

/-- The captures of a program are what the patterns say, in a strict order: by where they begin,
then by pattern.  The part that an identifier plays does not depend on comments. -/
theorem parseTree_highlights {text : Bytes} {t : Tree} (h : parseTree text = .ok t) :
    (Query.rue.highlights t).Pairwise Highlight.StrictlyBefore ∧
      (∀ (n : Nat) (c : Capture) (u : Tree), ⟨n, c, u⟩ ∈ Query.rue.highlights t ↔
        Query.rue.patterns[n]?.map Pattern.capture = some c ∧ u.Within t ∧ t.Matched u n) ∧
      ∀ u : Tree, (t.IsPart "function_item" "name" u ↔ t.IsNth "function_item" 1 u) ∧
        (t.IsPart "call_expression" "function" u ↔ t.IsNth "call_expression" 0 u) ∧
        (t.IsPart "parameter" "name" u ↔ t.IsNth "parameter" 0 u) := by
  obtain ⟨s, hs, rfl⟩ := parse_of_parseTree h
  have ho : s.tree.Ordered := (lossless_of_parse_eq_ok hs).ordered
  refine ⟨SourceFile.pairwise_strictlyBefore ho, fun n c u => ?_, fun u => ⟨?_, ?_, ?_⟩⟩
  · rw [← Tree.matched_iff, Query.mem_highlights, Option.map_eq_some_iff]
    constructor
    · rintro ⟨p, hp, hc, hu⟩
      exact ⟨⟨p, hp, hc⟩, p, hp, hu⟩
    · rintro ⟨⟨p, hp, hc⟩, r, hr, hu⟩
      obtain rfl : p = r := Option.some.inj (hp.symm.trans hr)
      exact ⟨p, hp, hc, hu⟩
  · exact SourceFile.isPart_iff_isNth (r := .functionItem) rfl
  · exact SourceFile.isPart_iff_isNth (r := .callExpression) rfl
  · exact SourceFile.isPart_iff_isNth (r := .parameter) rfl

/-- A word as the name of a function that is called with comments around the name.  It is captured
as what is called and as a name, and not as a keyword. -/
theorem parseTree_highlights_call :
    ∃ t, parseTree (Bytes.ofString "fn f(a:i32)->()\x7b/*a*/fn/*b*/(a,())\x7d") = .ok t ∧
      (Query.rue.highlights t).Pairwise Highlight.StrictlyBefore ∧
      ∃ u : Tree, u.span.start.byte = 21 ∧ ⟨6, .functionCall, u⟩ ∈ Query.rue.highlights t ∧
        ⟨14, .plainName, u⟩ ∈ Query.rue.highlights t ∧
        ⟨2, .keyword, u⟩ ∉ Query.rue.highlights t ∧ t.IsNth "call_expression" 0 u := by
  have hfound : (parseTree
      (Bytes.ofString "fn f(a:i32)->()\x7b/*a*/fn/*b*/(a,())\x7d")).toOption.map
      (Tree.anyChild fun p u => decide (p.kind = .rule .callExpression ∧
        u.kind = .token .identifier ∧ u.field = some .function ∧ u.span.start.byte = 21)) =
      some true := by
    decide +kernel
  obtain ⟨t, ht, hany⟩ := exists_parseTree_of_map hfound
  obtain ⟨p, u, hp, hu, hdecide⟩ := Tree.exists_of_anyChild hany
  obtain ⟨hkind, hukind, hfield, hstart⟩ := of_decide_eq_true hdecide
  have hwithin : u.Within t := .trans (.of_child hu) hp
  have hname : u.Is "identifier" := Tree.is_identifier_iff.mpr hukind
  have hcalled : t.IsPart "call_expression" "function" u :=
    Tree.isPart_iff (r := .callExpression).mpr ⟨⟨p, hp, hkind, hu, hfield⟩, hukind⟩
  obtain ⟨hstrict, hmem, hparts⟩ := parseTree_highlights ht
  refine ⟨t, ht, hstrict, u, hstart, (hmem _ _ _).mpr ⟨rfl, hwithin, hcalled⟩,
    (hmem _ _ _).mpr ⟨rfl, hwithin, hname⟩, fun hx => ?_, (hparts u).2.1.mp hcalled⟩
  have hword : u.IsOneOf ["fn", "let", "if", "else", "while"] := ((hmem _ _ _).mp hx).2.2
  exact absurd (hname.1.symm.trans hword.1) (by decide)

end RueSyntax
