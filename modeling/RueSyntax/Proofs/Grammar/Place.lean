import RueSyntax.Proofs.Grammar.Derivation

/-!
# Places for a symbol

`g.Place name f p us f' ws` says that the production `p`, inside the field `f` if there is one, has a
place for the symbol `name`, in the field `f'`, with the children `us` before it and `ws` behind it.
Whatever the symbol derives may be put there (`Place.fill`), and a child that a production derives
stands in such a place or comes about without the symbol (`through_or_outside`).

In the grammar of Rue expressions are put in some fields and not in others; a child that looks like
an expression and stands elsewhere is a name, the function of a call, or the conditional behind an
`else`.
-/

namespace RueSyntax

namespace Grammar

/-- The production has a place for the symbol, between these children and in the last field. -/
inductive Place (g : Grammar) (name : String) :
    Option String → Production → List Label → Option String → List Label → Prop
  | here {f : Option String} : Place g name f (.symbol name) [] f []
  | hidden {f f' : Option String} {s : String} {p : Production} {us ws : List Label}
    (h : isHiddenName s = true) (hp : g.rules.lookup s = some p) (hd : Place g name f p us f' ws) :
    Place g name f (.symbol s) us f' ws
  | seqHead {f f' : Option String} {p : Production} {ps : List Production} {us ws ms : List Label}
    (h : Place g name f p us f' ws) (hs : g.Derives f (.seq ps) ms) :
    Place g name f (.seq (p :: ps)) us f' (ws ++ ms)
  | seqTail {f f' : Option String} {p : Production} {ps : List Production} {ls us ws : List Label}
    (h : g.Derives f p ls) (hs : Place g name f (.seq ps) us f' ws) :
    Place g name f (.seq (p :: ps)) (ls ++ us) f' ws
  | choice {f f' : Option String} {p : Production} {ps : List Production} {us ws : List Label}
    (hp : p ∈ ps) (h : Place g name f p us f' ws) : Place g name f (.choice ps) us f' ws
  | repeatLast {f f' : Option String} {p : Production} {atLeastOnce : Bool} {ls us ws : List Label}
    (hs : g.Derives f (.repetition false p) ls) (h : Place g name f p us f' ws) :
    Place g name f (.repetition atLeastOnce p) (ls ++ us) f' ws
  | repeatBefore {f f' : Option String} {p : Production} {atLeastOnce : Bool}
    {us ws ms : List Label} (hs : Place g name f (.repetition false p) us f' ws)
    (h : g.Derives f p ms) : Place g name f (.repetition atLeastOnce p) us f' (ws ++ ms)
  | field {f f' : Option String} {k : String} {p : Production} {us ws : List Label}
    (h : Place g name (some k) p us f' ws) : Place g name f (.field k p) us f' ws
  | ranked {f f' : Option String} {o : Grouping} {r : Rank} {p : Production} {us ws : List Label}
    (h : Place g name f p us f' ws) : Place g name f (.ranked o r p) us f' ws

/-- The production derives the child without the symbol. -/
inductive Outside (g : Grammar) (name : String) : Option String → Production → Label → Prop
  | literal {f : Option String} {s : String} : Outside g name f (.literal s) ⟨f, s, false⟩
  | visible {f : Option String} {s : String} (h : isHiddenName s = false) :
    Outside g name f (.symbol s) ⟨f, s, true⟩
  | hidden {f : Option String} {s : String} {p : Production} {l : Label}
    (h : isHiddenName s = true) (hne : s ≠ name) (hp : g.rules.lookup s = some p)
    (hd : Outside g name f p l) : Outside g name f (.symbol s) l
  | seq {f : Option String} {p : Production} {ps : List Production} {l : Label} (hp : p ∈ ps)
    (h : Outside g name f p l) : Outside g name f (.seq ps) l
  | choice {f : Option String} {p : Production} {ps : List Production} {l : Label} (hp : p ∈ ps)
    (h : Outside g name f p l) : Outside g name f (.choice ps) l
  | repetition {f : Option String} {p : Production} {atLeastOnce : Bool} {l : Label}
    (h : Outside g name f p l) : Outside g name f (.repetition atLeastOnce p) l
  | field {f : Option String} {k : String} {p : Production} {l : Label}
    (h : Outside g name (some k) p l) : Outside g name f (.field k p) l
  | ranked {f : Option String} {o : Grouping} {r : Rank} {p : Production} {l : Label}
    (h : Outside g name f p l) : Outside g name f (.ranked o r p) l

/-- The rule has a place for the symbol between the children `us` and `ws`, and the child `l` is
what the symbol derives there. -/
def Puts (g : Grammar) (name rule : String) (us : List Label) (l : Label) (ws : List Label) : Prop :=
  ∃ p f, g.rules.lookup rule = some p ∧ g.Place name none p us f ws ∧
    g.Derives f (.symbol name) [l]

variable {g : Grammar} {name : String} {f f' : Option String} {p : Production}
  {ls us ws : List Label} {l : Label}

/-- What the symbol derives may be put in its place. -/
theorem Place.fill (h : g.Place name f p us f' ws) (hd : g.Derives f' (.symbol name) ls) :
    g.Derives f p (us ++ (ls ++ ws)) := by
  induction h with
  | here => simpa using hd
  | hidden hn hp _ ih => exact .hidden hn hp (ih hd)
  | seqHead _ hs ih =>
    have h := Derives.seqCons (ih hd) hs
    simpa only [List.append_assoc] using h
  | seqTail h _ ih =>
    rw [List.append_assoc]
    exact .seqCons h (ih hd)
  | choice hp _ ih => exact .choice hp (ih hd)
  | repeatLast hs _ ih =>
    rw [List.append_assoc]
    exact .repeatMore hs (ih hd)
  | @repeatBefore f f' p atLeastOnce us ws ms _ h ih =>
    have hall : g.Derives f (.repetition atLeastOnce p) (us ++ (ls ++ ws) ++ ms) :=
      .repeatMore (ih hd) h
    simpa only [List.append_assoc] using hall
  | field _ ih => exact .field (ih hd)
  | ranked _ ih => exact .ranked (ih hd)

/-- The child comes from the symbol, which stands in a place for it. -/
def Through (g : Grammar) (name : String) (f : Option String) (p : Production)
    (us : List Label) (l : Label) (ws : List Label) : Prop :=
  ∃ f' us₁ us₂ ws₁ ws₂, us = us₁ ++ us₂ ∧ ws = ws₂ ++ ws₁ ∧ g.Place name f p us₁ f' ws₁ ∧
    g.Derives f' (.symbol name) (us₂ ++ l :: ws₂)

namespace Through

variable {k : Option String} {q : Production}

/-- Places in one production that are places in another. -/
theorem same (h : g.Through name f p us l ws)
    (hq : ∀ {us f' ws}, g.Place name f p us f' ws → g.Place name k q us f' ws) :
    g.Through name k q us l ws := by
  obtain ⟨f', us₁, us₂, ws₁, ws₂, rfl, rfl, hplace, hd⟩ := h
  exact ⟨f', us₁, us₂, ws₁, ws₂, rfl, rfl, hq hplace, hd⟩

/-- Places in one production that are places in another, with more children before them. -/
theorem behind (h : g.Through name f p us l ws)
    (hq : ∀ {us f' ws}, g.Place name f p us f' ws → g.Place name k q (ls ++ us) f' ws) :
    g.Through name k q (ls ++ us) l ws := by
  obtain ⟨f', us₁, us₂, ws₁, ws₂, rfl, rfl, hplace, hd⟩ := h
  exact ⟨f', ls ++ us₁, us₂, ws₁, ws₂, (List.append_assoc _ _ _).symm, rfl, hq hplace, hd⟩

/-- Places in one production that are places in another, with more children behind them. -/
theorem before (h : g.Through name f p us l ws)
    (hq : ∀ {us f' ws}, g.Place name f p us f' ws → g.Place name k q us f' (ws ++ ls)) :
    g.Through name k q us l (ws ++ ls) := by
  obtain ⟨f', us₁, us₂, ws₁, ws₂, rfl, rfl, hplace, hd⟩ := h
  exact ⟨f', us₁, us₂, ws₁ ++ ls, ws₂, rfl, List.append_assoc _ _ _, hq hplace, hd⟩

end Through

/-- A child of two parts is one of the first or one of the second. -/
theorem append_cons_eq_append {ms : List Label} (h : us ++ l :: ws = ls ++ ms) :
    (∃ zs, ls = us ++ l :: zs ∧ ws = zs ++ ms) ∨ ∃ zs, ms = zs ++ l :: ws ∧ us = ls ++ zs := by
  rcases List.append_eq_append_iff.mp h with ⟨zs, rfl, hzs⟩ | ⟨zs, rfl, hzs⟩
  · rcases zs with _ | ⟨z, zs⟩
    · exact .inr ⟨[], hzs.symm, by simp⟩
    · obtain ⟨rfl, rfl⟩ := List.cons.inj hzs
      exact .inl ⟨zs, rfl, rfl⟩
  · exact .inr ⟨zs, hzs, rfl⟩

/-- A child that is derived comes from the symbol or comes about without it. -/
theorem through_or_outside (name : String) (h : g.Derives f p (us ++ l :: ws)) :
    g.Through name f p us l ws ∨ g.Outside name f p l := by
  generalize hls : us ++ l :: ws = ls at h
  induction h generalizing us ws with
  | blank => exact absurd hls (by simp)
  | literal =>
    obtain ⟨rfl, rfl, rfl⟩ := List.append_eq_singleton_iff.mp hls |>.resolve_right (by simp)
    exact .inr .literal
  | visible h =>
    obtain ⟨rfl, rfl, rfl⟩ := List.append_eq_singleton_iff.mp hls |>.resolve_right (by simp)
    exact .inr (.visible h)
  | @hidden f s p ls hn hp hd ih =>
    by_cases hs : s = name
    · subst hs hls
      exact .inl ⟨f, [], us, [], ws, rfl, (List.append_nil ws).symm, .here, .hidden hn hp hd⟩
    · exact (ih hls).imp (fun h => h.same (.hidden hn hp)) (.hidden hn hs hp)
  | seqNil => exact absurd hls (by simp)
  | seqCons h hs ih ihs =>
    rcases append_cons_eq_append hls with ⟨zs, hzs, rfl⟩ | ⟨zs, hzs, rfl⟩
    · exact (ih hzs.symm).imp (fun ht => ht.before fun hplace => .seqHead hplace hs)
        (.seq List.mem_cons_self)
    · refine (ihs hzs.symm).imp (fun ht => ht.behind (.seqTail h)) fun ho => ?_
      cases ho with
      | seq hp ho => exact .seq (List.mem_cons_of_mem _ hp) ho
  | choice hp _ ih => exact (ih hls).imp (fun ht => ht.same (.choice hp)) (.choice hp)
  | repeatNone => exact absurd hls (by simp)
  | repeatMore hs h ihs ih =>
    rcases append_cons_eq_append hls with ⟨zs, hzs, rfl⟩ | ⟨zs, hzs, rfl⟩
    · refine (ihs hzs.symm).imp (fun ht => ht.before fun hplace => .repeatBefore hplace h)
        fun ho => ?_
      cases ho with
      | repetition ho => exact .repetition ho
    · exact (ih hzs.symm).imp (fun ht => ht.behind (.repeatLast hs)) .repetition
  | field _ ih => exact (ih hls).imp (fun ht => ht.same .field) .field
  | ranked _ ih => exact (ih hls).imp (fun ht => ht.same .ranked) .ranked

end Grammar

end RueSyntax
