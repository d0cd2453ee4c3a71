import RueSyntax.Proofs.Grammar.Conformance
import RueSyntax.Proofs.Grammar.Place

/-!
# Where expressions stand

The grammar of Rue puts an expression into a statement, a block, a list of arguments, between
parentheses, and into the fields for a value, a condition and the sides of an operator.  A child of
the same kind elsewhere is the name of something, the function of a call, or the conditional behind
an `else`.
-/

namespace RueSyntax

/-! ### The fields in which a symbol stands -/

namespace Production

mutual

/-- The fields in which a production mentions the symbol, if it stands in the field `f` itself. -/
def fieldsAround (name : String) (f : Option String) : Production → List (Option String)
  | symbol s => if s = name then [f] else []
  | blank | literal _ | pattern _ _ => []
  | seq ps | choice ps => fieldsAroundOf name f ps
  | field k p => fieldsAround name (some k) p
  | repetition _ p | renamed _ _ p | ranked _ _ p | token _ p => fieldsAround name f p

def fieldsAroundOf (name : String) (f : Option String) : List Production → List (Option String)
  | [] => []
  | p :: ps => fieldsAround name f p ++ fieldsAroundOf name f ps

end

variable {name : String}

mutual

theorem mem_symbols_of_fieldsAround : ∀ (p : Production) (f : Option String) {f' : Option String},
    f' ∈ p.fieldsAround name f → name ∈ p.symbols
  | symbol s, f, f', h => by
    unfold fieldsAround at h
    split at h
    · next hs => exact hs ▸ List.mem_cons_self
    · cases h
  | seq ps, f, f', h | choice ps, f, f', h => mem_symbolsOf_of_fieldsAround ps f h
  | field k p, f, f', h => mem_symbols_of_fieldsAround p (some k) h
  | repetition _ p, f, f', h | renamed _ _ p, f, f', h | ranked _ _ p, f, f', h
  | token _ p, f, f', h => mem_symbols_of_fieldsAround p f h

theorem mem_symbolsOf_of_fieldsAround : ∀ (ps : List Production) (f : Option String)
    {f' : Option String}, f' ∈ fieldsAroundOf name f ps → name ∈ symbolsOf ps
  | p :: ps, f, f', h => by
    rcases List.mem_append.mp h with h | h
    · exact List.mem_append_left _ (mem_symbols_of_fieldsAround p f h)
    · exact List.mem_append_right _ (mem_symbolsOf_of_fieldsAround ps f h)

end

theorem fieldsAround_of_mem {ps : List Production} {p : Production} (hp : p ∈ ps)
    {f f' : Option String} (h : f' ∈ p.fieldsAround name f) : f' ∈ fieldsAroundOf name f ps := by
  induction ps with
  | nil => cases hp
  | cons q ps ih =>
    rcases List.mem_cons.mp hp with rfl | hp
    · exact List.mem_append_left _ h
    · exact List.mem_append_right _ (ih hp)

end Production

namespace Grammar

variable {f f' : Option String} {p : Production} {ls us ws : List Label} {l : Label}

/-- The kinds of expressions. -/
def expressionNames : List String := ["if_expression", "while_expression", "binary_expression",
  "call_expression", "identifier", "integer_literal", "boolean_literal", "unit_literal",
  "parenthesized_expression"]

theorem derives_expression_iff : rue.Derives f (.symbol "_expression") ls ↔
    ∃ k ∈ expressionNames, ls = [⟨f, k, true⟩] := by
  constructor
  · intro h
    obtain ⟨p, hp, hd⟩ := derives_choice.mp ((derives_hidden rfl rfl).mp h)
    simp only [List.mem_cons, List.not_mem_nil, or_false] at hp
    rcases hp with rfl | rfl | rfl | rfl | rfl
    · exact ⟨_, by simp [expressionNames], (derives_visible rfl).mp hd⟩
    · exact ⟨_, by simp [expressionNames], (derives_visible rfl).mp hd⟩
    · exact ⟨_, by simp [expressionNames], (derives_visible rfl).mp hd⟩
    · exact ⟨_, by simp [expressionNames], (derives_visible rfl).mp hd⟩
    · obtain ⟨p, hp, hd⟩ := derives_choice.mp ((derives_hidden rfl rfl).mp hd)
      simp only [List.mem_cons, List.not_mem_nil, or_false] at hp
      rcases hp with rfl | rfl | rfl | rfl | rfl <;>
        exact ⟨_, by simp [expressionNames], (derives_visible rfl).mp hd⟩
  · rintro ⟨k, hk, rfl⟩
    have hvisible : ∀ k ∈ expressionNames, isHiddenName k = false := by decide
    have hsplit : k ∈ ["if_expression", "while_expression", "binary_expression",
        "call_expression", "_primary_expression"] ∨ k ∈ ["identifier", "integer_literal",
        "boolean_literal", "unit_literal", "parenthesized_expression"] := by
      revert k
      decide
    rcases hsplit with h | h
    · exact derives_expression h (.visible (hvisible k hk))
    · exact derives_primary h (hvisible k hk)

/-- No hidden rule has a place for an expression of its own. -/
theorem hidden_without_expression : ∀ r ∈ rue.rules, isHiddenName r.1 = true →
    "_expression" ∉ r.2.symbols := by decide

theorem mem_of_lookup {name : String} (h : rue.rules.lookup name = some p) :
    (name, p) ∈ rue.rules := by
  obtain ⟨before, after, hrules, -⟩ := List.lookup_eq_some_iff.mp h
  rw [hrules]
  simp

/-- A place for an expression is in a field that the production mentions it in. -/
theorem field_of_place (h : rue.Place "_expression" f p us f' ws) :
    f' ∈ p.fieldsAround "_expression" f := by
  induction h with
  | here => exact List.mem_cons_self
  | hidden hn hp _ ih =>
    have hsymbol := Production.mem_symbols_of_fieldsAround _ _ ih
    exact absurd hsymbol (hidden_without_expression _ (mem_of_lookup hp) hn)
  | seqHead _ _ ih => exact Production.fieldsAround_of_mem List.mem_cons_self ih
  | seqTail _ _ ih => exact List.mem_append_right _ ih
  | choice hp _ ih => exact Production.fieldsAround_of_mem hp ih
  | repeatLast _ _ ih => exact ih
  | repeatBefore _ _ ih => exact ih
  | field _ ih => exact ih
  | ranked _ ih => exact ih

/-- An expression is not in the field of a name, and not in a file or behind `else`. -/
theorem puts_expression {r : Rule} (h : rue.Puts "_expression" r.name us l ws) :
    (l.kind ∈ expressionNames ∧ l.isNamed = true) ∧ l.field ≠ some "name" ∧
      l.field ≠ some "function" ∧ r ≠ .sourceFile ∧ r ≠ .elseClause := by
  have hrules : ∀ r : Rule, ∀ f ∈ ((rue.rules.lookup r.name).map
      (Production.fieldsAround "_expression" none)).getD [],
      f ≠ some "name" ∧ f ≠ some "function" ∧ r ≠ .sourceFile ∧ r ≠ .elseClause := by
    intro r
    cases r <;> decide
  obtain ⟨p, f, hp, hplace, hd⟩ := h
  obtain ⟨k, hk, hl⟩ := derives_expression_iff.mp hd
  obtain rfl := List.singleton_inj.mp hl
  refine ⟨⟨hk, rfl⟩, hrules r f ?_⟩
  rw [hp]
  exact field_of_place hplace

/-- Every other expression may stand in the place of one. -/
theorem Puts.produces {rule : String} (h : rue.Puts "_expression" rule us l ws) {k : String}
    (hk : k ∈ expressionNames) : rue.Produces rule (us ++ ⟨l.field, k, true⟩ :: ws) := by
  obtain ⟨p, f, hp, hplace, hd⟩ := h
  obtain ⟨_, -, hl⟩ := derives_expression_iff.mp hd
  obtain rfl := List.singleton_inj.mp hl
  exact ⟨p, hp, hplace.fill (derives_expression_iff.mpr ⟨k, hk, rfl⟩)⟩

end Grammar

/-! ### Children that are no expressions -/

namespace Production

mutual

/-- The production mentions no kind of expression by itself, but for names in the fields of
names. -/
def isSparing : Production → Bool
  | symbol s => !Grammar.expressionNames.contains s && s != "_primary_expression"
  | field k (symbol s) => (k == "name" || k == "function") && !isHiddenName s ||
      (!Grammar.expressionNames.contains s && s != "_primary_expression")
  | field _ p | repetition _ p | renamed _ _ p | ranked _ _ p | token _ p => isSparing p
  | seq ps | choice ps => areSparing ps
  | blank | literal _ | pattern _ _ => true

def areSparing : List Production → Bool
  | [] => true
  | p :: ps => isSparing p && areSparing ps

end

theorem isSparing_of_mem {ps : List Production} (h : areSparing ps = true) :
    ∀ p ∈ ps, p.isSparing = true := by
  induction ps with
  | nil => nofun
  | cons q ps ih =>
    rw [areSparing, Bool.and_eq_true] at h
    exact List.forall_mem_cons.mpr ⟨h.1, ih h.2⟩

end Production

namespace Grammar

variable {f : Option String} {p : Production} {l : Label}

theorem hidden_isSparing : ∀ r ∈ rue.rules, isHiddenName r.1 = true → r.1 ≠ "_expression" →
    r.1 ≠ "_primary_expression" → r.2.isSparing = true := by decide

/-- What comes about without an expression looks like one only in the fields of names. -/
theorem field_of_outside (h : rue.Outside "_expression" f p l) (hp : p.isSparing = true)
    (hk : l.kind ∈ expressionNames) (hn : l.isNamed = true) :
    l.field = some "name" ∨ l.field = some "function" := by
  induction h with
  | literal => cases hn
  | visible =>
    simp only [Production.isSparing, Bool.and_eq_true, Bool.not_eq_true',
      List.contains_eq_mem, decide_eq_false_iff_not] at hp
    exact absurd hk hp.1
  | hidden hs hne hrule _ ih =>
    simp only [Production.isSparing, Bool.and_eq_true, bne_iff_ne] at hp
    exact ih (hidden_isSparing _ (mem_of_lookup hrule) hs hne hp.2) hk hn
  | seq hmem _ ih => exact ih (Production.isSparing_of_mem hp _ hmem) hk hn
  | choice hmem _ ih => exact ih (Production.isSparing_of_mem hp _ hmem) hk hn
  | repetition _ ih => exact ih hp hk hn
  | ranked _ ih => exact ih hp hk hn
  | @field f k p l h ih =>
    cases p with
    | symbol s =>
      simp only [Production.isSparing, Bool.or_eq_true, Bool.and_eq_true, beq_iff_eq,
        Bool.not_eq_true'] at hp
      rcases hp with ⟨hname, hvisible⟩ | hp
      · -- a name in its field
        cases h with
        | visible => exact hname.imp (congrArg some) (congrArg some)
        | hidden hs =>
          rw [hvisible] at hs
          cases hs
      · exact ih (by simpa [Production.isSparing] using hp) hk hn
    | _ => exact ih hp hk hn

/-- What looks like an expression stands in a place for one, unless it is in the field of a name or
behind `else`. -/
theorem puts_of_produces {r : Rule} (hr : r ≠ .elseClause) {us ws : List Label}
    (h : rue.Produces r.name (us ++ l :: ws)) (hk : l.kind ∈ expressionNames)
    (hn : l.isNamed = true) (hname : l.field ≠ some "name")
    (hfunction : l.field ≠ some "function") : rue.Puts "_expression" r.name us l ws := by
  have hrules : ∀ r : Rule, r ≠ .elseClause →
      ((rue.rules.lookup r.name).map Production.isSparing).getD true = true := by
    intro r
    cases r <;> decide
  obtain ⟨p, hp, hd⟩ := h
  rcases through_or_outside "_expression" hd with ⟨f', us₁, us₂, ws₁, ws₂, rfl, rfl, hplace, hexp⟩ |
    ho
  · obtain ⟨k, -, hsingle⟩ := derives_expression_iff.mp hexp
    obtain ⟨rfl, hl, rfl⟩ := List.append_eq_singleton_iff.mp hsingle |>.resolve_right (by simp)
    rw [List.append_nil, List.nil_append]
    exact ⟨p, f', hp, hplace, hexp⟩
  · have hsparing := hrules r hr
    rw [hp] at hsparing
    exact ((field_of_outside ho hsparing hk hn).elim hname hfunction).elim

end Grammar

end RueSyntax
