import RueSyntax.Build.FileSystem
import RueSyntax.Proofs.Fallible

/-!
# What the operations on a file system do

For each operation one lemma says how it can end: with which answer, and with the file system
changed in which way.  Making directories adds directories on the way to the one that is wanted, and
nothing else (`FileSystem.Grows`); writing changes one path.  Where an operation succeeds, what it
was to make can be found.
-/

namespace RueSyntax

/-! ### Ways through a file system -/

namespace Path

/-- The path `q` is `p` or goes through it. -/
inductive LeadsTo (p : Path) : Path → Prop
  | self : LeadsTo p p
  | entry {d : Path} (h : LeadsTo p d) (name : String) : LeadsTo p (.entry d name)

theorem LeadsTo.size_le {p q : Path} (h : p.LeadsTo q) : sizeOf p ≤ sizeOf q := by
  induction h with
  | self => exact Nat.le_refl _
  | entry h name ih =>
    simp only [entry.sizeOf_spec]
    omega

theorem LeadsTo.trans {p q r : Path} (h : p.LeadsTo q) (h' : q.LeadsTo r) : p.LeadsTo r := by
  induction h' with
  | self => exact h
  | entry _ name ih => exact .entry ih name

/-- No way goes back to where it came from. -/
theorem not_leadsTo_directory (d : Path) (name : String) : ¬ (entry d name).LeadsTo d := by
  intro h
  have hs := h.size_le
  simp only [entry.sizeOf_spec] at hs
  omega

theorem leadsTo_entry {p d : Path} {name : String} (h : p.LeadsTo (entry d name)) :
    p = entry d name ∨ p.LeadsTo d := by
  cases h with
  | self => exact .inl rfl
  | entry h => exact .inr h

end Path

namespace FileSystem

variable {fs fs' fs'' : FileSystem} {p q : Path}

theorem entries_put_self (fs : FileSystem) (p : Path) (e : Entry) :
    (fs.put p e).entries p = some e := if_pos rfl

theorem entries_put_of_ne (fs : FileSystem) (e : Entry) (h : q ≠ p) :
    (fs.put p e).entries q = fs.entries q := if_neg h

theorem entries_putPart_of_ne (fs : FileSystem) (part : Option Bytes) (h : q ≠ p) :
    (fs.putPart p part).entries q = fs.entries q := by
  cases part with
  | none => rfl
  | some content => exact entries_put_of_ne fs (.file content) h

/-- What stands at a path depends only on the paths that lead to it. -/
theorem find_put_of_not_leadsTo (fs : FileSystem) (e : Entry) (h : ¬ p.LeadsTo q) :
    (fs.put p e).find q = fs.find q := by
  induction q with
  | root name =>
    have hne : Path.root name ≠ p := fun hn => h (hn ▸ .self)
    rw [find, find, entries_put_of_ne fs e hne]
  | entry d name ih =>
    have hne : Path.entry d name ≠ p := fun hn => h (hn ▸ .self)
    have hd := ih fun hl => h (.entry hl name)
    rw [find, find, entries_put_of_ne fs e hne, hd]

/-- What is put where there is a place for it is found there. -/
theorem find_put_self {o : Option Entry} (h : fs.place p = .ok o) (e : Entry) :
    (fs.put p e).find p = .ok e := by
  cases p with
  | root name => rw [find, entries_put_self]
  | entry d name =>
    have hd := find_put_of_not_leadsTo fs e (Path.not_leadsTo_directory d name)
    have hdir : fs.find d = .ok .directory := by
      simp only [place, Path.parent?] at h
      split at h
      · assumption
      · cases h
      · cases h
    rw [find, hd, hdir, entries_put_self]

theorem content?_of_find {content : Bytes} (h : fs.find p = .ok (.file content)) :
    fs.content? p = some content := by
  rw [content?, h]

/-- There is a file at `p` that can be read, and this is what it holds. -/
def Holds (fs : FileSystem) (p : Path) (content : Bytes) : Prop :=
  fs.find p = .ok (.file content) ∧ fs.faults (.read p) = none

theorem Holds.unique {content content' : Bytes} (h : fs.Holds p content)
    (h' : fs.Holds p content') : content = content' :=
  Entry.file.inj (Except.ok.inj (h.1.symm.trans h'.1))

/-- Only directories are new in `fs'`, and only such as lead to `p`. -/
def Grows (p : Path) (fs fs' : FileSystem) : Prop :=
  ∀ q, fs'.entries q = fs.entries q ∨
    (q.LeadsTo p ∧ fs.entries q = none ∧ fs'.entries q = some .directory)

theorem Grows.refl (p : Path) (fs : FileSystem) : Grows p fs fs := fun _ => .inl rfl

theorem Grows.trans (h : Grows p fs fs') (h' : Grows p fs' fs'') : Grows p fs fs'' := by
  intro q
  rcases h q with hq | ⟨hl, hold, hnew⟩
  · rcases h' q with hq' | ⟨hl, hold, hnew⟩
    · exact .inl (hq'.trans hq)
    · exact .inr ⟨hl, hq.symm.trans hold, hnew⟩
  · rcases h' q with hq' | ⟨-, hold', -⟩
    · exact .inr ⟨hl, hold, hq'.trans hnew⟩
    · rw [hnew] at hold'
      cases hold'

theorem Grows.mono (h : Grows p fs fs') (hpq : p.LeadsTo q) : Grows q fs fs' := by
  intro r
  rcases h r with hr | ⟨hl, hold, hnew⟩
  · exact .inl hr
  · exact .inr ⟨hl.trans hpq, hold, hnew⟩

theorem grows_put (h : fs.entries p = none) : Grows p fs (fs.put p .directory) := by
  intro q
  by_cases hq : q = p
  · subst hq
    exact .inr ⟨.self, h, entries_put_self fs q .directory⟩
  · exact .inl (entries_put_of_ne fs .directory hq)

/-- A path that does not lead to `p` is as it was. -/
theorem Grows.entries_eq (h : Grows p fs fs') (hq : ¬ q.LeadsTo p) :
    fs'.entries q = fs.entries q :=
  (h q).resolve_right fun hn => hq hn.1

theorem entries_of_place (h : fs.place p = .ok none) : fs.entries p = none := by
  unfold place at h
  split at h
  · exact Except.ok.inj h
  · split at h
    · exact Except.ok.inj h
    · cases h
    · cases h

theorem find_of_isDirectory (h : fs.isDirectory p = true) : fs.find p = .ok .directory := by
  unfold isDirectory at h
  split at h
  · assumption
  · cases h

end FileSystem

namespace Disk

open Fallible FileSystem

variable (fs : FileSystem) (p : Path)

theorem run_ask {α : Type} (f : FileSystem → Except IoError α) :
    (ask f).run fs = (f fs, fs) := by
  show (MonadExcept.ofExcept (f fs) : Disk α).run fs = _
  cases f fs <;> rfl

theorem run_check (o : Operation) :
    (check o).run fs =
      match fs.faults o with
      | some f => (.error f.error, fs)
      | none => (.ok (), fs) := by
  show (match fs.faults o with
    | some f => (throw f.error : Disk Unit)
    | none => pure ()).run fs = _
  cases fs.faults o <;> rfl

/-- Reading changes nothing, and gives what is there to be read. -/
theorem run_read :
    (∃ content, fs.Holds p content ∧ (read p).run fs = (.ok content, fs)) ∨
      (∀ content, ¬ fs.Holds p content) ∧ ∃ e, (read p).run fs = (.error e, fs) := by
  have hask := run_ask fs (·.find p)
  have hcheck := run_check fs (.read p)
  unfold read
  cases hfind : fs.find p with
  | error e =>
    rw [hfind] at hask
    refine .inr ⟨?_, e, run_bind_error hask⟩
    rintro content ⟨hfile, -⟩
    rw [hfind] at hfile
    cases hfile
  | ok entry =>
    rw [hfind] at hask
    rw [run_bind_ok hask]
    cases entry with
    | directory =>
      refine .inr ⟨?_, .isADirectory, rfl⟩
      rintro content ⟨hfile, -⟩
      rw [hfind] at hfile
      cases hfile
    | file content =>
      cases hfault : fs.faults (.read p) with
      | some f =>
        rw [hfault] at hcheck
        refine .inr ⟨?_, f.error, run_bind_error hcheck⟩
        rintro content' ⟨-, hnone⟩
        rw [hfault] at hnone
        cases hnone
      | none =>
        rw [hfault] at hcheck
        exact .inl ⟨content, ⟨hfind, hfault⟩, run_bind_ok hcheck⟩

theorem run_makeDirectory :
    (∃ e, (makeDirectory p).run fs = (.error e, fs)) ∨
      fs.place p = .ok none ∧ (makeDirectory p).run fs = (.ok (), fs.put p .directory) := by
  have hask := run_ask fs (·.place p)
  have hcheck := run_check fs (.makeDirectory p)
  unfold makeDirectory
  cases hplace : fs.place p with
  | error e =>
    rw [hplace] at hask
    exact .inl ⟨e, run_bind_error hask⟩
  | ok o =>
    rw [hplace] at hask
    rw [run_bind_ok hask]
    cases o with
    | some entry => exact .inl ⟨.alreadyExists, rfl⟩
    | none =>
      cases hf : fs.faults (.makeDirectory p) with
      | some f =>
        rw [hf] at hcheck
        exact .inl ⟨f.error, run_bind_error hcheck⟩
      | none =>
        rw [hf] at hcheck
        exact .inr ⟨rfl, run_bind_ok hcheck⟩

/-- A directory that cannot be made leaves everything as it was. -/
theorem run_ensureDirectory :
    (∃ e, (ensureDirectory p).run fs = (.error e, fs)) ∨
      ∃ fs', (ensureDirectory p).run fs = (.ok (), fs') ∧ Grows p fs fs' ∧
        fs'.find p = .ok .directory := by
  unfold ensureDirectory
  rw [run_tryCatch]
  rcases run_makeDirectory fs p with ⟨e, he⟩ | ⟨hplace, hok⟩
  · rw [he]
    show (∃ e', (if fs.isDirectory p then (pure () : Disk Unit) else throw e).run fs = _) ∨
      ∃ fs', (if fs.isDirectory p then (pure () : Disk Unit) else throw e).run fs = _ ∧ _
    by_cases hd : fs.isDirectory p = true
    · rw [if_pos hd]
      exact .inr ⟨fs, rfl, .refl p fs, find_of_isDirectory hd⟩
    · rw [if_neg hd]
      exact .inl ⟨e, rfl⟩
  · rw [hok]
    exact .inr ⟨_, rfl, grows_put (entries_of_place hplace), find_put_self hplace .directory⟩

/-- The directory is there if all went well; in any case nothing but directories on the way to it
has been made. -/
theorem run_createDirectories :
    ∃ r fs', (createDirectories p).run fs = (r, fs') ∧ Grows p fs fs' ∧
      (r = .ok () → fs'.find p = .ok .directory) := by
  induction p generalizing fs with
  | root name =>
    rcases run_ensureDirectory fs (.root name) with ⟨e, he⟩ | ⟨fs', hok, hg, hd⟩
    · exact ⟨_, _, he, .refl _ fs, nofun⟩
    · exact ⟨_, _, hok, hg, fun _ => hd⟩
  | entry d name ih =>
    unfold createDirectories
    rw [run_tryCatch]
    rcases run_ensureDirectory fs (.entry d name) with ⟨e, he⟩ | ⟨fs', hok, hg, hd⟩
    · rw [he]
      by_cases hn : e = .notFound
      · -- the directory around it is made first
        simp only [if_pos hn]
        obtain ⟨r, fs1, hr, hg, -⟩ := ih fs
        have hgrow : Grows (.entry d name) fs fs1 := hg.mono (.entry .self name)
        cases r with
        | error e1 => exact ⟨_, _, run_bind_error hr, hgrow, nofun⟩
        | ok _ =>
          rw [run_bind_ok hr]
          rcases run_ensureDirectory fs1 (.entry d name) with ⟨e2, he2⟩ | ⟨fs2, hok2, hg2, hd2⟩
          · exact ⟨_, _, he2, hgrow, nofun⟩
          · exact ⟨_, _, hok2, hgrow.trans hg2, fun _ => hd2⟩
      · simp only [if_neg hn]
        exact ⟨_, _, rfl, .refl _ fs, nofun⟩
    · rw [hok]
      exact ⟨_, _, rfl, hg, fun _ => hd⟩

/-- A write where a file stands or may stand fails only if the operation is bound to. -/
theorem run_write_of_place {o : Option Entry} (hplace : fs.place p = .ok o)
    (ho : o ≠ some .directory) (content : Bytes) :
    (write p content).run fs =
      match fs.faults (.write p) with
      | some f => (.error f.error, fs.putPart p f.left)
      | none => (.ok (), fs.put p (.file content)) := by
  have hask := run_ask fs (·.place p)
  rw [hplace] at hask
  have hrun : (write p content).run fs =
      (match fs.faults (.write p) with
      | some f => (do modify fun fs : FileSystem => fs.putPart p f.left; throw f.error : Disk Unit)
      | none => modify fun fs : FileSystem => fs.put p (.file content)).run fs := by
    unfold write
    rw [run_bind_ok hask]
    rcases o with _ | _ | _
    · rfl
    · rfl
    · exact absurd rfl ho
  rw [hrun]
  cases fs.faults (.write p) <;> rfl

/-- Writing changes the one path; a write that fails may leave part of its bytes. -/
theorem run_write (content : Bytes) :
    (∃ e part, (write p content).run fs = (.error e, fs.putPart p part)) ∨
      (write p content).run fs = (.ok (), fs.put p (.file content)) ∧
        (fs.put p (.file content)).find p = .ok (.file content) := by
  have hask := run_ask fs (·.place p)
  cases hplace : fs.place p with
  | error e =>
    rw [hplace] at hask
    exact .inl ⟨e, none, run_bind_error hask⟩
  | ok o =>
    rw [hplace] at hask
    by_cases ho : o = some .directory
    · subst ho
      exact .inl ⟨.isADirectory, none, run_bind_ok hask⟩
    · have hrun := run_write_of_place fs p hplace ho content
      cases hf : fs.faults (.write p) with
      | some f =>
        rw [hf] at hrun
        exact .inl ⟨f.error, f.left, hrun⟩
      | none =>
        rw [hf] at hrun
        exact .inr ⟨hrun, find_put_self hplace (.file content)⟩

end Disk

end RueSyntax
