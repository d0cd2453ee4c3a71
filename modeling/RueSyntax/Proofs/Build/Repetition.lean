import RueSyntax.Proofs.Build.Stages

/-!
# Making the parser once more

What has been made is found again and is not made anew: directories that stand are left as they are,
and a file is replaced by one that holds the same.  It remains to be seen that the description from
which all is made is still there after the first time.  Neither output goes by its name, and the
description does not stand under one either, wherever the output directory lies: what leads to the
description is a directory, and a directory is not written to.
-/

namespace RueSyntax

namespace FileSystem

variable {fs fs' : FileSystem} {p q : Path}

/-- All that a path goes through are directories. -/
theorem find_of_leadsTo {d : Path} {name : String} {e : Entry} (h : p.LeadsTo d)
    (hfind : fs.find (.entry d name) = .ok e) : fs.find p = .ok .directory := by
  have hdir : ∀ {d : Path} {name : String} {e : Entry}, fs.find (.entry d name) = .ok e →
      fs.find d = .ok .directory := by
    intro d name e hfind
    simp only [find] at hfind
    split at hfind
    · assumption
    · cases hfind
    · cases hfind
  induction h generalizing name e with
  | self => exact hdir hfind
  | entry _ name' ih => exact ih (hdir hfind)

/-- What can be found is found where directories have been made besides. -/
theorem Grows.find (h : Grows p fs fs') {e : Entry} (hfind : fs.find q = .ok e) :
    fs'.find q = .ok e := by
  have hentry : ∀ r e, fs.entries r = some e → fs'.entries r = some e := by
    intro r e he
    rcases h r with hr | ⟨-, hnone, -⟩
    · rw [hr, he]
    · rw [hnone] at he
      cases he
  induction q generalizing e with
  | root name =>
    simp only [FileSystem.find] at hfind ⊢
    split at hfind
    · next e' he =>
      rw [hentry _ _ he]
      exact hfind
    · cases hfind
  | entry d name ih =>
    have hd := find_of_leadsTo .self hfind
    simp only [FileSystem.find, hd, ih hd] at hfind ⊢
    split at hfind
    · next e' he =>
      rw [hentry _ _ he]
      exact hfind
    · cases hfind

theorem entries_of_find {e : Entry} (h : fs.find p = .ok e) : fs.entries p = some e := by
  cases p with
  | root name =>
    simp only [find] at h
    split at h
    · next e' he =>
      rw [he, Except.ok.inj h]
    · cases h
  | entry d name =>
    simp only [find, find_of_leadsTo .self h] at h
    split at h
    · next e' he =>
      rw [he, Except.ok.inj h]
    · cases h

theorem place_of_find {e : Entry} (h : fs.find p = .ok e) : fs.place p = .ok (some e) := by
  have he := entries_of_find h
  cases p with
  | root name => exact congrArg Except.ok he
  | entry d name => simp only [place, Path.parent?, find_of_leadsTo .self h, he]

theorem isDirectory_of_find (h : fs.find p = .ok .directory) : fs.isDirectory p = true := by
  rw [isDirectory, h]

/-- Putting a thing where it stands changes nothing. -/
theorem put_of_find {e : Entry} (h : fs.find p = .ok e) : fs.put p e = fs := by
  have hentries : (fs.put p e).entries = fs.entries := by
    funext q
    by_cases hq : q = p
    · rw [hq, entries_put_self, entries_of_find h]
    · exact entries_put_of_ne fs e hq
  show FileSystem.mk (fs.put p e).entries fs.faults = fs
  rw [hentries]

end FileSystem

namespace Disk

open Fallible FileSystem

variable {fs fs' : FileSystem} {p : Path} {content : Bytes}

/-! ### Doing again what is done -/

theorem run_ensureDirectory_of_find (h : fs.find p = .ok .directory) :
    (ensureDirectory p).run fs = (.ok (), fs) := by
  have hmake : (makeDirectory p).run fs = (.error .alreadyExists, fs) := by
    have hask := run_ask fs (·.place p)
    rw [place_of_find h] at hask
    unfold makeDirectory
    exact run_bind_ok hask
  unfold ensureDirectory
  rw [run_tryCatch, hmake]
  show (if fs.isDirectory p then (pure () : Disk Unit) else throw .alreadyExists).run fs = _
  rw [if_pos (isDirectory_of_find h)]
  rfl

theorem run_createDirectories_of_find (h : fs.find p = .ok .directory) :
    (createDirectories p).run fs = (.ok (), fs) := by
  cases p with
  | root name => exact run_ensureDirectory_of_find h
  | entry d name =>
    unfold createDirectories
    rw [run_tryCatch, run_ensureDirectory_of_find h]

theorem run_write_of_find (h : fs.find p = .ok (.file content))
    (hfault : fs.faults (.write p) = none) : (write p content).run fs = (.ok (), fs) := by
  rw [run_write_of_place fs p (place_of_find h) (by simp) content, hfault, put_of_find h]

/-! ### What a success says -/

/-- A write succeeds only where no directory stands and nothing speaks against it. -/
theorem run_write_eq_ok (h : (write p content).run fs = (.ok (), fs')) :
    fs' = fs.put p (.file content) ∧ fs.find p ≠ .ok .directory ∧
      fs.faults (.write p) = none ∧ fs'.find p = .ok (.file content) := by
  have hask := run_ask fs (·.place p)
  cases hplace : fs.place p with
  | error e =>
    rw [hplace] at hask
    rw [write, run_bind_error hask] at h
    cases h
  | ok o =>
    by_cases ho : o = some .directory
    · subst ho
      rw [hplace] at hask
      rw [write, run_bind_ok hask] at h
      cases h
    · have hdir : fs.find p ≠ .ok .directory := by
        intro hd
        exact ho (Except.ok.inj (hplace.symm.trans (place_of_find hd)))
      rw [run_write_of_place fs p hplace ho content] at h
      cases hfault : fs.faults (.write p) with
      | some f =>
        rw [hfault] at h
        cases h
      | none =>
        rw [hfault] at h
        obtain rfl : fs.put p (.file content) = fs' := (Prod.mk.inj h).2
        exact ⟨rfl, hdir, rfl, find_put_self hplace _⟩

theorem faults_ensureDirectory {r : Except IoError Unit}
    (h : (ensureDirectory p).run fs = (r, fs')) : fs'.faults = fs.faults := by
  unfold ensureDirectory at h
  rw [run_tryCatch] at h
  rcases run_makeDirectory fs p with ⟨e, he⟩ | ⟨-, hok⟩
  · rw [he] at h
    change (if fs.isDirectory p then (pure () : Disk Unit) else throw e).run fs = _ at h
    split at h
    · rw [← (Prod.mk.inj h).2]
    · rw [← (Prod.mk.inj h).2]
  · rw [hok] at h
    rw [← (Prod.mk.inj h).2]
    rfl

/-- Which operations fail is not changed by the directories that are made. -/
theorem faults_createDirectories {r : Except IoError Unit}
    (h : (createDirectories p).run fs = (r, fs')) : fs'.faults = fs.faults := by
  induction p generalizing fs fs' r with
  | root name => exact faults_ensureDirectory h
  | entry d name ih =>
    unfold createDirectories at h
    rw [run_tryCatch] at h
    rcases hfirst : (ensureDirectory (.entry d name)).run fs with ⟨e | u, fs₁⟩
    · have hfaults := faults_ensureDirectory hfirst
      rw [hfirst] at h
      dsimp only at h
      split at h
      · rcases hdir : (createDirectories d).run fs₁ with ⟨e' | u, fs₂⟩
        · rw [run_bind_error hdir] at h
          rw [← (Prod.mk.inj h).2, ih hdir, hfaults]
        · rw [run_bind_ok hdir] at h
          rw [faults_ensureDirectory h, ih hdir, hfaults]
      · rw [← (Prod.mk.inj h).2, hfaults]
    · rw [hfirst] at h
      rw [← (Prod.mk.inj h).2, faults_ensureDirectory hfirst]

end Disk

namespace Build

open Fallible FileSystem

variable {tools : Toolchain} {package out : Path}

/-! ### The outputs and the description -/

theorem headerPath_ne_descriptionPath (package out : Path) :
    headerPath out ≠ descriptionPath package := fun h =>
  absurd (Path.entry.inj h).2 (by decide)

theorem codePath_ne_descriptionPath (package out : Path) :
    codePath out ≠ descriptionPath package := fun h =>
  absurd (Path.entry.inj h).2 (by decide)

/-- Where a file can be written and the description can be found, the one is not on the way to the
other. -/
theorem not_leadsTo_of_find {p : Path} {fs : FileSystem} {content : Bytes}
    (hname : p ≠ descriptionPath package) (hdir : fs.find p ≠ .ok .directory)
    (hfind : fs.find (descriptionPath package) = .ok (.file content)) :
    ¬ p.LeadsTo (descriptionPath package) := by
  intro h
  have hsrc : p.LeadsTo (.entry package "src") := (Path.leadsTo_entry h).resolve_left hname
  exact hdir (find_of_leadsTo hsrc hfind)

/-! ### Runs that succeed -/

/-- The stages of a run that succeeds, with the files before and after each. -/
structure Passed (tools : Toolchain) (description out : Path) (text : String) (code : Bytes)
    (fs fs₁ fs₂ fs' : FileSystem) : Prop where
  reads : Reads fs description text
  generates : tools.generate text = some (grammarName, code)
  makes : (Disk.createDirectories (headerDirectory out)).run fs = (.ok (), fs₁)
  writesHeader : (Disk.write (headerPath out) tools.header).run fs₁ = (.ok (), fs₂)
  writesCode : (Disk.write (codePath out) code).run fs₂ = (.ok (), fs')

theorem exists_of_run_onDisk {α : Type} {d : Disk α} {failure : IoError → Failure} {w w' : World}
    {a : α} (h : (onDisk d failure).run w = (.ok a, w')) :
    ∃ fs', d.run w.files = (.ok a, fs') ∧ w' = { w with files := fs' } := by
  rcases hd : d.run w.files with ⟨e | b, fs'⟩
  · rw [run_onDisk_error hd failure] at h
    cases h
  · rw [run_onDisk hd failure] at h
    cases h
    exact ⟨fs', rfl, rfl⟩

theorem exists_passed {description : Path} {w w' : World} {p : Path}
    (h : (generateParser tools description out).run w = (.ok p, w')) :
    p = codePath out ∧ ∃ text code fs₁ fs₂ fs',
      Passed tools description out text code w.files fs₁ fs₂ fs' ∧ w' = { w with files := fs' } := by
  unfold generateParser at h
  rcases run_readText description w with ⟨text, htext, hread⟩ | ⟨-, hread⟩
  · rw [run_bind_ok hread] at h
    cases hgen : tools.generate text with
    | none =>
      rw [hgen] at h
      cases h
    | some made =>
      obtain ⟨name, code⟩ := made
      rw [hgen] at h
      by_cases hname : name = grammarName
      · subst hname
        change (writeSources tools code out).run w = (.ok p, w') at h
        obtain ⟨⟨⟩, w₁, h₁, h⟩ := exists_of_run_bind h
        obtain ⟨fs₁, hmakes, rfl⟩ := exists_of_run_onDisk h₁
        obtain ⟨⟨⟩, w₂, h₂, h⟩ := exists_of_run_bind h
        obtain ⟨fs₂, hheader, rfl⟩ := exists_of_run_onDisk h₂
        obtain ⟨⟨⟩, w₃, h₃, h⟩ := exists_of_run_bind h
        obtain ⟨fs', hcode, rfl⟩ := exists_of_run_onDisk h₃
        cases h
        exact ⟨rfl, text, code, fs₁, fs₂, fs', ⟨htext, hgen, hmakes, hheader, hcode⟩, rfl⟩
      · simp only [if_pos hname] at h
        cases h
  · rw [run_bind_error hread] at h
    cases h

namespace Passed

variable {description : Path} {text : String} {code : Bytes} {fs fs₁ fs₂ fs' : FileSystem}

theorem run (h : Passed tools description out text code fs fs₁ fs₂ fs') {w : World}
    (hw : w.files = fs) :
    (generateParser tools description out).run w = (.ok (codePath out), { w with files := fs' }) := by
  subst hw
  have hread : (readText description).run w = (.ok text, w) := by
    rcases run_readText description w with ⟨text', htext', hrun⟩ | ⟨hnone, -⟩
    · rw [hrun, htext'.unique h.reads]
    · exact absurd h.reads (hnone text)
  unfold generateParser
  rw [run_bind_ok hread, h.generates]
  show (writeSources tools code out).run w = _
  rw [writeSources, run_bind_ok (run_onDisk h.makes .io),
    run_bind_ok (run_onDisk h.writesHeader .io), run_bind_ok (run_onDisk h.writesCode .io)]
  rfl

/-- After a run that succeeds everything is in place for the next: the description has stayed, and
what is to be made stands already. -/
theorem again (h : Passed tools (descriptionPath package) out text code fs fs₁ fs₂ fs') :
    Passed tools (descriptionPath package) out text code fs' fs' fs' fs' := by
  obtain ⟨⟨content, ⟨hfind, hreads⟩, htext⟩, hgenerates, hmakes, hwrites, hcodes⟩ := h
  obtain ⟨rfl, hdir₂, hfault₂, hfound₂⟩ := Disk.run_write_eq_ok hcodes
  obtain ⟨rfl, hdir₁, hfault₁, hfound₁⟩ := Disk.run_write_eq_ok hwrites
  obtain ⟨r, fs₁', hmakes', hgrows, hmade⟩ := Disk.run_createDirectories fs (headerDirectory out)
  obtain ⟨rfl, rfl⟩ := Prod.mk.inj (hmakes'.symm.trans hmakes)
  have hfaults : fs₁'.faults = fs.faults := Disk.faults_createDirectories hmakes
  -- neither output has been put in the way of the description
  have hfind₁ := hgrows.find hfind
  have hfind₂ : (fs₁'.put (headerPath out) (.file tools.header)).find (descriptionPath package) =
      .ok (.file content) := by
    rw [find_put_of_not_leadsTo _ _
      (not_leadsTo_of_find (headerPath_ne_descriptionPath package out) hdir₁ hfind₁)]
    exact hfind₁
  have hfind₃ := hfind₂
  rw [← find_put_of_not_leadsTo _ (.file code)
    (not_leadsTo_of_find (codePath_ne_descriptionPath package out) hdir₂ hfind₂)] at hfind₃
  -- nor in the way of one another
  have hheader := hfound₁
  rw [← find_put_of_not_leadsTo _ (.file code) (codePath_not_leadsTo_headerPath out)] at hheader
  refine ⟨⟨content, ⟨hfind₃, ?_⟩, htext⟩, hgenerates,
    Disk.run_createDirectories_of_find (find_of_leadsTo .self hheader),
    Disk.run_write_of_find hheader hfault₁, Disk.run_write_of_find hfound₂ hfault₂⟩
  exact (congrFun hfaults _).trans hreads

/-- What is made of the description is what the files hold in the end. -/
theorem contents (h : Passed tools description out text code fs fs₁ fs₂ fs') :
    fs'.content? (codePath out) = some code ∧
      fs'.content? (headerPath out) = some tools.header := by
  obtain ⟨rfl, -, -, hfound₂⟩ := Disk.run_write_eq_ok h.writesCode
  obtain ⟨rfl, -, -, hfound₁⟩ := Disk.run_write_eq_ok h.writesHeader
  refine ⟨content?_of_find hfound₂, content?_of_find ?_⟩
  rw [find_put_of_not_leadsTo _ _ (codePath_not_leadsTo_headerPath out)]
  exact hfound₁

end Passed

theorem Reads.text_eq {fs fs' : FileSystem} {p : Path} {text text' : String}
    (h : Reads fs p text) (h' : Reads fs' p text') (he : fs.content? p = fs'.content? p) :
    text = text' := by
  obtain ⟨content, ⟨hfind, -⟩, htext⟩ := h
  obtain ⟨content', ⟨hfind', -⟩, htext'⟩ := h'
  rw [content?_of_find hfind, content?_of_find hfind'] at he
  obtain rfl := Option.some.inj he
  exact Option.some.inj (htext.symm.trans htext')

/-- Where the parser of a package has been generated, generating it again succeeds in the same way
and changes nothing, wherever package and output lie in one another.  What two runs make that find
the same description is the same, whatever else they find. -/
theorem generateParser_repeatable (tools : Toolchain) (package out : Path) :
    (∀ w w' p, (generateParser tools (descriptionPath package) out).run w = (.ok p, w') →
      (generateParser tools (descriptionPath package) out).run w' = (.ok p, w')) ∧
    ∀ w₁ w₂ w₁' w₂' p₁ p₂,
      w₁.files.content? (descriptionPath package) = w₂.files.content? (descriptionPath package) →
      (generateParser tools (descriptionPath package) out).run w₁ = (.ok p₁, w₁') →
      (generateParser tools (descriptionPath package) out).run w₂ = (.ok p₂, w₂') →
      p₁ = p₂ ∧ ∃ code header,
        w₁'.files.content? (codePath out) = some code ∧
        w₂'.files.content? (codePath out) = some code ∧
        w₁'.files.content? (headerPath out) = some header ∧
        w₂'.files.content? (headerPath out) = some header := by
  refine ⟨fun w w' p h => ?_, fun w₁ w₂ w₁' w₂' p₁ p₂ hsame h₁ h₂ => ?_⟩
  · obtain ⟨rfl, text, code, fs₁, fs₂, fs', hpassed, rfl⟩ := exists_passed h
    exact hpassed.again.run rfl
  · obtain ⟨rfl, text, code₁, _, _, _, hpassed₁, rfl⟩ := exists_passed h₁
    obtain ⟨rfl, text', code₂, _, _, _, hpassed₂, rfl⟩ := exists_passed h₂
    obtain rfl := hpassed₁.reads.text_eq hpassed₂.reads hsame
    have hcode : code₁ = code₂ :=
      (Prod.mk.inj (Option.some.inj (hpassed₁.generates.symm.trans hpassed₂.generates))).2
    subst hcode
    exact ⟨rfl, code₁, tools.header, hpassed₁.contents.1, hpassed₂.contents.1,
      hpassed₁.contents.2, hpassed₂.contents.2⟩

/-- Where the description of the package `m` stands, and where it is built here. -/
def nestedOut : Path := .entry (.root "m") "src"

/-- The files of that package, perhaps with older code beside the description. -/
def nestedFiles (old : Option Bytes) : FileSystem where
  entries := fun q =>
    if q = .root "m" ∨ q = nestedOut then some .directory
    else if q = descriptionPath (.root "m") then some (.file [0x7b, 0x7d])
    else if q = codePath nestedOut then old.map .file
    else none
  faults := fun _ => none

def nestedRun (files : FileSystem) : Except Failure Path × World :=
  (generateParser smallTools (descriptionPath (.root "m")) nestedOut).run ⟨files, [], []⟩

theorem generateParser_repeatable_nested :
    nestedRun (nestedRun (nestedFiles (some [9, 9, 9]))).2.files =
        nestedRun (nestedFiles (some [9, 9, 9])) ∧
      ∃ code header,
        (nestedRun (nestedFiles none)).2.files.content? (codePath nestedOut) = some code ∧
        (nestedRun (nestedFiles (some [9, 9, 9]))).2.files.content? (codePath nestedOut) =
          some code ∧
        (nestedRun (nestedFiles none)).2.files.content? (headerPath nestedOut) = some header ∧
        (nestedRun (nestedFiles (some [9, 9, 9]))).2.files.content? (headerPath nestedOut) =
          some header :=
  ⟨(generateParser_repeatable smallTools (.root "m") nestedOut).1
      ⟨nestedFiles (some [9, 9, 9]), [], []⟩ _ _ rfl,
    ((generateParser_repeatable smallTools (.root "m") nestedOut).2
      ⟨nestedFiles none, [], []⟩ ⟨nestedFiles (some [9, 9, 9]), [], []⟩ _ _
      (codePath nestedOut) (codePath nestedOut) rfl rfl rfl).2⟩

end Build

end RueSyntax
