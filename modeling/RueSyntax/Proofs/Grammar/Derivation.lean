import RueSyntax.Grammar.Rue

/-!
# What a grammar derives

A label is what a grammar says about a child of a node: its field, the name of its kind, and
whether that name is the name of a rule or the text of a literal.  `g.Derives f p ls` says that the
production `p`, inside the field `f` if there is one, derives the children `ls`.  A hidden rule
derives what its own production derives, in the same field; every other rule and every literal
makes one child.

Patterns and tokens make the text of a leaf and have no children, so they derive nothing here.
-/

namespace RueSyntax

/-- What a grammar says about a child. -/
structure Label where
  field : Option String
  kind : String
  isNamed : Bool
deriving DecidableEq, Repr

namespace Grammar

/-- The children that a production derives. -/
inductive Derives (g : Grammar) : Option String → Production → List Label → Prop
  | blank {f : Option String} : Derives g f .blank []
  | literal {f : Option String} {s : String} : Derives g f (.literal s) [⟨f, s, false⟩]
  | visible {f : Option String} {name : String} (h : isHiddenName name = false) :
    Derives g f (.symbol name) [⟨f, name, true⟩]
  | hidden {f : Option String} {name : String} {p : Production} {ls : List Label}
    (h : isHiddenName name = true) (hp : g.rules.lookup name = some p) (hd : Derives g f p ls) :
    Derives g f (.symbol name) ls
  | seqNil {f : Option String} : Derives g f (.seq []) []
  | seqCons {f : Option String} {p : Production} {ps : List Production} {ls ms : List Label}
    (h : Derives g f p ls) (hs : Derives g f (.seq ps) ms) : Derives g f (.seq (p :: ps)) (ls ++ ms)
  | choice {f : Option String} {p : Production} {ps : List Production} {ls : List Label}
    (hp : p ∈ ps) (h : Derives g f p ls) : Derives g f (.choice ps) ls
  | repeatNone {f : Option String} {p : Production} : Derives g f (.repetition false p) []
  | repeatMore {f : Option String} {p : Production} {atLeastOnce : Bool} {ls ms : List Label}
    (hs : Derives g f (.repetition false p) ls) (h : Derives g f p ms) :
    Derives g f (.repetition atLeastOnce p) (ls ++ ms)
  | field {f : Option String} {name : String} {p : Production} {ls : List Label}
    (h : Derives g (some name) p ls) : Derives g f (.field name p) ls
  | ranked {f : Option String} {o : Grouping} {r : Rank} {p : Production} {ls : List Label}
    (h : Derives g f p ls) : Derives g f (.ranked o r p) ls

/-- The rule of that name derives the children. -/
def Produces (g : Grammar) (name : String) (ls : List Label) : Prop :=
  ∃ p, g.rules.lookup name = some p ∧ g.Derives none p ls

variable {g : Grammar} {f : Option String} {ls : List Label}

/-! ### By the form of the production -/

theorem derives_blank : g.Derives f .blank ls ↔ ls = [] := by
  constructor
  · intro h
    cases h
    rfl
  · rintro rfl
    exact .blank

theorem derives_literal {s : String} : g.Derives f (.literal s) ls ↔ ls = [⟨f, s, false⟩] := by
  constructor
  · intro h
    cases h
    rfl
  · rintro rfl
    exact .literal

theorem derives_visible {name : String} (hn : isHiddenName name = false) :
    g.Derives f (.symbol name) ls ↔ ls = [⟨f, name, true⟩] := by
  constructor
  · intro h
    cases h with
    | visible => rfl
    | hidden h =>
      rw [hn] at h
      cases h
  · rintro rfl
    exact .visible hn

theorem derives_hidden {name : String} {p : Production} (hn : isHiddenName name = true)
    (hp : g.rules.lookup name = some p) : g.Derives f (.symbol name) ls ↔ g.Derives f p ls := by
  constructor
  · intro h
    cases h with
    | visible h =>
      rw [hn] at h
      cases h
    | hidden _ hq hd =>
      rw [hp, Option.some.injEq] at hq
      rwa [hq]
  · exact .hidden hn hp

theorem derives_seq_nil : g.Derives f (.seq []) ls ↔ ls = [] := by
  constructor
  · intro h
    cases h
    rfl
  · rintro rfl
    exact .seqNil

theorem derives_seq_cons {p : Production} {ps : List Production} :
    g.Derives f (.seq (p :: ps)) ls ↔
      ∃ ls₁ ls₂, ls = ls₁ ++ ls₂ ∧ g.Derives f p ls₁ ∧ g.Derives f (.seq ps) ls₂ := by
  constructor
  · intro h
    cases h with
    | seqCons h hs => exact ⟨_, _, rfl, h, hs⟩
  · rintro ⟨ls₁, ls₂, rfl, h, hs⟩
    exact .seqCons h hs

theorem derives_choice {ps : List Production} :
    g.Derives f (.choice ps) ls ↔ ∃ p ∈ ps, g.Derives f p ls := by
  constructor
  · intro h
    cases h with
    | choice hp h => exact ⟨_, hp, h⟩
  · rintro ⟨p, hp, h⟩
    exact .choice hp h

theorem derives_field {name : String} {p : Production} :
    g.Derives f (.field name p) ls ↔ g.Derives (some name) p ls := by
  constructor
  · intro h
    cases h with
    | field h => exact h
  · exact .field

theorem derives_ranked {o : Grouping} {r : Rank} {p : Production} :
    g.Derives f (.ranked o r p) ls ↔ g.Derives f p ls := by
  constructor
  · intro h
    cases h with
    | ranked h => exact h
  · exact .ranked

theorem derives_optional {p : Production} :
    g.Derives f (optional p) ls ↔ g.Derives f p ls ∨ ls = [] := by
  rw [optional, derives_choice]
  constructor
  · rintro ⟨q, hq, h⟩
    simp only [List.mem_cons, List.not_mem_nil, or_false] at hq
    rcases hq with rfl | rfl
    · exact .inl h
    · exact .inr (derives_blank.mp h)
  · rintro (h | rfl)
    · exact ⟨p, by simp, h⟩
    · exact ⟨.blank, by simp, .blank⟩

/-! ### Lists with commas -/

theorem derives_commaSeparated_one {p : Production} (h : g.Derives f p ls) :
    g.Derives f (commaSeparated p) ls := by
  have hall : g.Derives f (commaSeparated p) (ls ++ ([] ++ [])) :=
    .seqCons h (.seqCons .repeatNone .seqNil)
  rwa [List.append_nil, List.append_nil] at hall

/-- A list with commas may be continued with a comma and one more. -/
theorem derives_commaSeparated_more {p : Production} {ms : List Label}
    (hs : g.Derives f (commaSeparated p) ls) (h : g.Derives f p ms) :
    g.Derives f (commaSeparated p) (ls ++ ⟨f, ",", false⟩ :: ms) := by
  rw [commaSeparated, derives_seq_cons] at hs
  obtain ⟨first, rest, rfl, hfirst, hrest⟩ := hs
  obtain ⟨others, _, rfl, hothers, hend⟩ := derives_seq_cons.mp hrest
  obtain rfl := derives_seq_nil.mp hend
  have hmore : g.Derives f (.seq [.literal ",", p]) ([⟨f, ",", false⟩] ++ (ms ++ [])) :=
    .seqCons .literal (.seqCons h .seqNil)
  have hall : g.Derives f (commaSeparated p)
      (first ++ ((others ++ ([⟨f, ",", false⟩] ++ (ms ++ []))) ++ [])) :=
    .seqCons hfirst (.seqCons (.repeatMore hothers hmore) .seqNil)
  simpa using hall

end Grammar

end RueSyntax
