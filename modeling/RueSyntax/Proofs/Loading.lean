import RueSyntax.Loading

/-!
# Loading over any run

A use of the library leaves the effects before it as they are and adds its own behind them, which
depend on nothing but the table that its entry point hands back (`run_eq`).  There are three ways
that it can go, one for each kind of table (`load_null`, `load_supported`, `load_refused`).  So a
run of many uses is each of them by itself, one behind the other (`runAll_eq_map`).
-/

namespace RueSyntax

namespace Loading

/-- The runtime knows the version of the table. -/
def Table.IsSupported (t : Table) : Prop := oldest ≤ t.abi ∧ t.abi ≤ newest

/-! ### One entry point -/

theorem load_null (es : List Effect) :
    (load none).run es = (.error .nullTable, es ++ [.entryCall, .event .noTable]) := by
  have hlast : ((es ++ [.entryCall]) ++ [.event .noTable] : List Effect) =
      es ++ [.entryCall, .event .noTable] := List.append_assoc _ _ _
  rw [← hlast]
  rfl

/-- The version is read twice, once to report it and once by the runtime. -/
theorem load_supported {t : Table} (h : t.IsSupported) (es : List Effect) :
    (load (some t)).run es = (.ok t, es ++ [.entryCall, .read .abi, .read .abi, .read .nodeKinds,
      .read .fields, .event (.loaded t.abi t.nodeKinds t.fields)]) := by
  obtain ⟨hleast, hgreatest⟩ := h
  simp only [load, EntryPoint.call, record, bind_pure_comp, Table.read, Table.isAccepted,
    Functor.map_map, bind_map_left, Bool.and_eq_true, decide_eq_true_eq, hleast, hgreatest,
    and_self, if_true, StateT.run_bind, StateT.run_modify, StateT.run_map, map_pure,
    List.append_assoc, List.cons_append, List.nil_append]
  rfl

theorem load_refused {t : Table} (h : ¬ t.IsSupported) (es : List Effect) :
    (load (some t)).run es = (.error (.incompatibleVersion t.abi oldest newest),
      es ++ [.entryCall, .read .abi, .read .abi, .event (.refused t.abi oldest newest)]) := by
  have hrange : ¬ (oldest ≤ t.abi ∧ t.abi ≤ newest) := h
  simp only [load, EntryPoint.call, record, bind_pure_comp, Table.read, Table.isAccepted,
    Functor.map_map, bind_map_left, Bool.and_eq_true, decide_eq_true_eq, hrange, if_false,
    StateT.run_bind, StateT.run_modify, StateT.run_map, map_pure, List.append_assoc,
    List.cons_append, List.nil_append]
  rfl

/-! ### One use -/

namespace Call

/-- The entry point that a use calls. -/
def entry : Call → EntryPoint
  | load p => p
  | verify own => own

/-- What a use hands on of a table that it has loaded. -/
def handle : Call → Table → Option Table
  | load _, t => some t
  | verify _, _ => none

/-- What a use answers by itself. -/
def answer (c : Call) : Except Failure (Option Table) := (c.run.run []).1

/-- The effects of a use by itself. -/
def effects (c : Call) : List Effect := (c.run.run []).2

/-- A use is the loading of its table, up to what it hands on. -/
theorem run_load (c : Call) (es : List Effect) :
    c.run.run es =
      (((Loading.load c.entry).run es).1.map c.handle, ((Loading.load c.entry).run es).2) := by
  cases c with
  | load p => rfl
  | verify own =>
    simp only [run, Loading.verify, entry, StateT.run_bind, StateT.run_pure]
    generalize (Loading.load own).run es = r
    obtain ⟨answer, after⟩ := r
    cases answer <;> rfl

/-- What came before a use has no influence on it. -/
theorem run_eq (c : Call) (es : List Effect) : c.run.run es = (c.answer, es ++ c.effects) := by
  rw [answer, effects, run_load, run_load]
  cases c.entry with
  | none => rw [load_null, load_null, List.nil_append]
  | some t =>
    by_cases h : t.IsSupported
    · rw [load_supported h, load_supported h, List.nil_append]
    · rw [load_refused h, load_refused h, List.nil_append]

end Call

/-- What may be expected of a use that logs the event `e`: of its answer and of its effects, by
what its entry point hands back. -/
structure Call.Settles (c : Call) (e : Event) : Prop where
  called : c.effects.count .entryCall = 1
  logged : c.effects.filterMap Effect.event? = [e]
  succeeds : (∃ r, c.answer = .ok r) ↔ ∃ t, c.entry = some t ∧ t.IsSupported
  loaded : ∀ t, c.entry = some t → t.IsSupported → c.answer = .ok (c.handle t) ∧
    e = .loaded t.abi t.nodeKinds t.fields ∧ e.level = .debug
  /-- Nothing is read where there is nothing to read. -/
  null : c.entry = none →
    c.answer = .error .nullTable ∧ e = .noTable ∧ e.level = .warn ∧ ∀ q, .read q ∉ c.effects
  /-- The failure and the event tell the same three numbers, and nothing but the version was
  read. -/
  refused : ∀ t, c.entry = some t → ¬ t.IsSupported → ∃ found least greatest,
    c.answer = .error (.incompatibleVersion found least greatest) ∧
      e = .refused found least greatest ∧ e.level = .warn ∧ found = t.abi ∧
      ¬ (least ≤ found ∧ found ≤ greatest) ∧ ∀ q, .read q ∈ c.effects → q = .abi

theorem Call.settles (c : Call) : ∃ e, c.Settles e := by
  have hanswer : c.answer = ((Loading.load c.entry).run []).1.map c.handle :=
    congrArg Prod.fst (c.run_load [])
  have heffects : c.effects = ((Loading.load c.entry).run []).2 :=
    congrArg Prod.snd (c.run_load [])
  cases hp : c.entry with
  | none =>
    rw [hp, load_null] at hanswer heffects
    refine ⟨.noTable, ?_, ?_, ?_, ?_, ?_, ?_⟩
    · rw [heffects]
      rfl
    · rw [heffects]
      rfl
    · simp [hanswer, hp, Except.map]
    · simp [hp]
    · intro _
      exact ⟨hanswer, rfl, rfl, by simp [heffects]⟩
    · simp [hp]
  | some t =>
    by_cases h : t.IsSupported
    · rw [hp, load_supported h] at hanswer heffects
      refine ⟨.loaded t.abi t.nodeKinds t.fields, ?_, ?_, ?_, ?_, ?_, ?_⟩
      · rw [heffects]
        rfl
      · rw [heffects]
        rfl
      · simp [hanswer, hp, Except.map, h]
      · intro u hu _
        cases hp.symm.trans hu
        exact ⟨hanswer, rfl, rfl⟩
      · simp [hp]
      · intro u hu hn
        cases hp.symm.trans hu
        exact (hn h).elim
    · rw [hp, load_refused h] at hanswer heffects
      refine ⟨.refused t.abi oldest newest, ?_, ?_, ?_, ?_, ?_, ?_⟩
      · rw [heffects]
        rfl
      · rw [heffects]
        rfl
      · simp [hanswer, hp, Except.map, h]
      · intro u hu hn
        cases hp.symm.trans hu
        exact (h hn).elim
      · simp [hp]
      · intro u hu _
        cases hp.symm.trans hu
        exact ⟨t.abi, oldest, newest, hanswer, rfl, rfl, rfl, h, by simp [heffects]⟩

/-! ### Any number of uses -/

theorem runAll_cons (c : Call) (calls : List Call) (es : List Effect) :
    (runAll (c :: calls)).run es = (((c.run.run es).1 :: ((runAll calls).run (c.run.run es).2).1),
      ((runAll calls).run (c.run.run es).2).2) := by
  rw [runAll, List.mapM_cons]
  rfl

theorem runAll_eq_map (calls : List Call) (es : List Effect) :
    (runAll calls).run es = (calls.map Call.answer, es ++ calls.flatMap Call.effects) := by
  induction calls generalizing es with
  | nil =>
    rw [List.flatMap_nil, List.append_nil]
    rfl
  | cons c calls ih =>
    rw [runAll_cons, c.run_eq, ih, List.map_cons, List.flatMap_cons, List.append_assoc]

/-- In a run of any uses, each answers and does what it would by itself, behind the effects of those
before it; two uses with one table go alike; and each is as its own table wants it. -/
theorem runAll_settles (calls : List Call) (es : List Effect) :
    (runAll calls).run es = (calls.map Call.answer, es ++ calls.flatMap Call.effects) ∧
      (∀ c d : Call, c.entry = d.entry → c.effects = d.effects ∧
        c.answer.map (fun _ => ()) = d.answer.map fun _ => ()) ∧
      ∀ c ∈ calls, ∃ e, c.Settles e := by
  refine ⟨runAll_eq_map calls es, ?_, fun c _ => c.settles⟩
  intro c d h
  rw [Call.effects, Call.effects, Call.answer, Call.answer, Call.run_load, Call.run_load, h]
  refine ⟨rfl, ?_⟩
  cases ((load d.entry).run []).1 <;> rfl

/-- No table, one that is too old, and the table for Rue, one behind the other. -/
theorem runAll_settles_three :
    (runAll [.load none, .verify (some ⟨12, 0, 0⟩), .verify]).run [] =
        ([.error .nullTable, .error (.incompatibleVersion 12 13 14), .ok none],
          [.entryCall, .event .noTable,
            .entryCall, .read .abi, .read .abi, .event (.refused 12 13 14),
            .entryCall, .read .abi, .read .abi, .read .nodeKinds, .read .fields,
              .event (.loaded 14 Grammar.rue.symbols.length Grammar.rue.fields.length)]) ∧
      (∃ e, (Call.load none).Settles e) ∧ (∃ e, (Call.verify (some ⟨12, 0, 0⟩)).Settles e) ∧
      ∃ e, Call.verify.Settles e := by
  obtain ⟨hrun, -, hall⟩ := runAll_settles [.load none, .verify (some ⟨12, 0, 0⟩), .verify] []
  refine ⟨?_, hall _ (by simp), hall _ (by simp), hall _ (by simp)⟩
  rw [hrun]
  rfl

end Loading

end RueSyntax
