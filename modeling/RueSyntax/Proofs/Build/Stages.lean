import RueSyntax.Build.Script
import RueSyntax.Proofs.Build.Disk

/-!
# The stages of the build

A build goes through its stages in one order and ends at the first that fails.  `Generated` lists
the ways in which making the code can end, each with what has been touched by then; what a build
leaves behind is read off that list.
-/

namespace RueSyntax

namespace Build

open Fallible FileSystem

variable {tools : Toolchain} {fs fs' : FileSystem} {description out : Path}

/-! ### Places -/

/-- The code stands beside the header, not before it. -/
theorem codePath_not_leadsTo_headerPath (out : Path) :
    ¬ (codePath out).LeadsTo (headerPath out) := by
  intro h
  rcases Path.leadsTo_entry h with h | h
  · exact absurd (Path.entry.inj h).2 (by decide)
  · rcases Path.leadsTo_entry h with h | h
    · exact absurd (Path.entry.inj h).2 (by decide)
    · exact Path.not_leadsTo_directory out "parser.c" h

theorem codePath_not_leadsTo_headerDirectory (out : Path) :
    ¬ (codePath out).LeadsTo (headerDirectory out) := fun h =>
  codePath_not_leadsTo_headerPath out (.entry h "parser.h")

theorem headerPath_not_leadsTo_headerDirectory (out : Path) :
    ¬ (headerPath out).LeadsTo (headerDirectory out) :=
  Path.not_leadsTo_directory (headerDirectory out) "parser.h"

theorem codePath_ne_headerPath (out : Path) : codePath out ≠ headerPath out := fun h =>
  codePath_not_leadsTo_headerPath out (h ▸ .self)

theorem headerPath_ne_libraryPath (out : Path) : headerPath out ≠ libraryPath out := fun h =>
  absurd (Path.entry.inj h).2 (by decide)

theorem codePath_ne_libraryPath (out : Path) : codePath out ≠ libraryPath out := fun h =>
  absurd (Path.entry.inj h).2 (by decide)

/-! ### Steps of a script -/

theorem run_onDisk {α : Type} {d : Disk α} {w : World} {a : α}
    (h : d.run w.files = (.ok a, fs')) (failure : IoError → Failure) :
    (onDisk d failure).run w = (.ok a, { w with files := fs' }) := by
  have hget : (get : Script World).run w = (.ok w, w) := rfl
  rw [onDisk, run_bind_ok hget, h]
  rfl

theorem run_onDisk_error {α : Type} {d : Disk α} {w : World} {e : IoError}
    (h : d.run w.files = (.error e, fs')) (failure : IoError → Failure) :
    (onDisk d failure).run w = (.error (failure e), { w with files := fs' }) := by
  have hget : (get : Script World).run w = (.ok w, w) := rfl
  rw [onDisk, run_bind_ok hget, h]
  rfl

/-- There is a file at `p` that can be read, and it holds a text. -/
def Reads (fs : FileSystem) (p : Path) (text : String) : Prop :=
  ∃ content, fs.Holds p content ∧ Utf8.decode? content = some text

theorem Reads.unique {p : Path} {text text' : String} (h : Reads fs p text)
    (h' : Reads fs p text') : text = text' := by
  obtain ⟨content, hholds, hdecode⟩ := h
  obtain ⟨content', hholds', hdecode'⟩ := h'
  rw [hholds.unique hholds'] at hdecode
  exact Option.some.inj (hdecode.symm.trans hdecode')

theorem run_readText (p : Path) (w : World) :
    (∃ text, Reads w.files p text ∧ (readText p).run w = (.ok text, w)) ∨
      (∀ text, ¬ Reads w.files p text) ∧ (readText p).run w = (.error (.unreadable p), w) := by
  unfold readText
  rcases Disk.run_read w.files p with ⟨content, hholds, hok⟩ | ⟨hnone, e, he⟩
  · have hrun := run_onDisk hok fun _ => .unreadable p
    rw [run_bind_ok hrun]
    cases htext : Utf8.decode? content with
    | some text => exact .inl ⟨text, ⟨content, hholds, htext⟩, rfl⟩
    | none =>
      refine .inr ⟨?_, rfl⟩
      rintro text ⟨content', hholds', hdecode⟩
      rw [hholds'.unique hholds, htext] at hdecode
      cases hdecode
  · have hrun := run_onDisk_error he fun _ => .unreadable p
    refine .inr ⟨?_, run_bind_error hrun⟩
    rintro text ⟨content, hholds, -⟩
    exact hnone content hholds

/-! ### Making the code -/

/-- The description can be read, and `code` is made from it for the grammar of the right name. -/
def Makes (tools : Toolchain) (fs : FileSystem) (description : Path) (code : Bytes) : Prop :=
  ∃ text, Reads fs description text ∧ tools.generate text = some (grammarName, code)

/-- What comes before the code is written. -/
def writeHeader (tools : Toolchain) (out : Path) : Disk Unit := do
  Disk.createDirectories (headerDirectory out)
  Disk.write (headerPath out) tools.header

theorem run_writeHeader {fs1 : FileSystem}
    (h : (Disk.createDirectories (headerDirectory out)).run fs = (.ok (), fs1)) :
    (writeHeader tools out).run fs = (Disk.write (headerPath out) tools.header).run fs1 :=
  run_bind_ok h

/-- The header is written, and all else that is new are directories on the way to it. -/
structure Headed (tools : Toolchain) (out : Path) (fs fs' : FileSystem) : Prop where
  run : (writeHeader tools out).run fs = (.ok (), fs')
  touched : ∃ fs1, Grows (headerDirectory out) fs fs1 ∧
    fs' = fs1.put (headerPath out) (.file tools.header)
  found : fs'.find (headerPath out) = .ok (.file tools.header)

/-- The ways in which making the code can end. -/
inductive Generated (tools : Toolchain) (fs : FileSystem) (description out : Path) :
    Except Failure Path → FileSystem → Prop
  | refused (failure : Failure) (h : ∀ code, ¬ Makes tools fs description code) :
    Generated tools fs description out (.error failure) fs
  | noDirectory {e : IoError} {fs1 : FileSystem} {code : Bytes}
    (hmakes : Makes tools fs description code)
    (hdir : (Disk.createDirectories (headerDirectory out)).run fs = (.error e, fs1))
    (hgrows : Grows (headerDirectory out) fs fs1) :
    Generated tools fs description out (.error (.io e)) fs1
  | noHeader {e : IoError} {fs1 : FileSystem} {part : Option Bytes} {code : Bytes}
    (hmakes : Makes tools fs description code)
    (hdir : (Disk.createDirectories (headerDirectory out)).run fs = (.ok (), fs1))
    (hgrows : Grows (headerDirectory out) fs fs1)
    (hwrite : (writeHeader tools out).run fs = (.error e, fs1.putPart (headerPath out) part)) :
    Generated tools fs description out (.error (.io e)) (fs1.putPart (headerPath out) part)
  | noCode {fs2 : FileSystem} {code : Bytes} (e : IoError) (part : Option Bytes)
    (hmakes : Makes tools fs description code) (h : Headed tools out fs fs2) :
    Generated tools fs description out (.error (.io e)) (fs2.putPart (codePath out) part)
  | done {fs2 : FileSystem} {code : Bytes} (hmakes : Makes tools fs description code)
    (h : Headed tools out fs fs2)
    (hfound : (fs2.put (codePath out) (.file code)).find (codePath out) = .ok (.file code)) :
    Generated tools fs description out (.ok (codePath out)) (fs2.put (codePath out) (.file code))

/-- What is done with code that has been made. -/
def writeSources (tools : Toolchain) (code : Bytes) (out : Path) : Script Path := do
  onDisk (Disk.createDirectories (headerDirectory out)) .io
  onDisk (Disk.write (headerPath out) tools.header) .io
  onDisk (Disk.write (codePath out) code) .io
  return codePath out

theorem run_writeSources {code : Bytes} {w : World} (out : Path)
    (hmakes : Makes tools w.files description code) :
    ∃ r files, (writeSources tools code out).run w = (r, { w with files }) ∧
      Generated tools w.files description out r files := by
  unfold writeSources
  obtain ⟨r, fs1, hdir, hgrows, -⟩ := Disk.run_createDirectories w.files (headerDirectory out)
  cases r with
  | error e =>
    exact ⟨_, _, run_bind_error (run_onDisk_error hdir .io), .noDirectory hmakes hdir hgrows⟩
  | ok u =>
    rw [run_bind_ok (run_onDisk hdir .io)]
    rcases Disk.run_write fs1 (headerPath out) tools.header with ⟨e, part, he⟩ | ⟨hok, hfind⟩
    · have hwrite := (run_writeHeader hdir).trans he
      exact ⟨_, _, run_bind_error (run_onDisk_error he .io),
        .noHeader hmakes hdir hgrows hwrite⟩
    · rw [run_bind_ok (run_onDisk hok .io)]
      have hheaded : Headed tools out w.files (fs1.put (headerPath out) (.file tools.header)) :=
        ⟨(run_writeHeader hdir).trans hok, ⟨fs1, hgrows, rfl⟩, hfind⟩
      rcases Disk.run_write _ (codePath out) code with ⟨e, part, he⟩ | ⟨hok', hfind'⟩
      · exact ⟨_, _, run_bind_error (run_onDisk_error he .io), .noCode e part hmakes hheaded⟩
      · exact ⟨_, _, run_bind_ok (run_onDisk hok' .io), .done hmakes hheaded hfind'⟩

theorem run_generateParser (tools : Toolchain) (description out : Path) (w : World) :
    ∃ r files, (generateParser tools description out).run w = (r, { w with files }) ∧
      Generated tools w.files description out r files := by
  unfold generateParser
  rcases run_readText description w with ⟨text, htext, hread⟩ | ⟨hnone, hread⟩
  · rw [run_bind_ok hread]
    cases hgen : tools.generate text with
    | none =>
      refine ⟨_, _, rfl, .refused .notGenerated ?_⟩
      rintro code ⟨text', htext', hcode⟩
      rw [htext'.unique htext, hgen] at hcode
      cases hcode
    | some made =>
      obtain ⟨name, code⟩ := made
      by_cases hname : name = grammarName
      · subst hname
        exact run_writeSources out ⟨text, htext, hgen⟩
      · refine ⟨.error (.otherName name), w.files, ?_, .refused (.otherName name) ?_⟩
        · simp only [if_pos hname]
          rfl
        · rintro code' ⟨text', htext', hcode⟩
          rw [htext'.unique htext, hgen] at hcode
          cases hcode
          exact hname rfl
  · refine ⟨_, _, run_bind_error hread, .refused (.unreadable description) ?_⟩
    rintro code ⟨text, htext, -⟩
    exact hnone text htext

/-! ### What is left behind -/

/-- What stands at `q` is as it was, or `q` is among the places where making the code may leave
something: the files for the header and the code, and directories that were missing on the way to
the header. -/
def Kept (out : Path) (fs fs' : FileSystem) (q : Path) : Prop :=
  fs'.entries q = fs.entries q ∨ q = headerPath out ∨ q = codePath out ∨
    (q.LeadsTo (headerDirectory out) ∧ fs.entries q = none ∧ fs'.entries q = some .directory)

variable {r : Except Failure Path} {q : Path}

theorem kept_of_grows (h : Grows (headerDirectory out) fs fs') : Kept out fs fs' q := by
  rcases h q with hq | hq
  · exact .inl hq
  · exact .inr (.inr (.inr hq))

theorem Kept.putPart {p : Path} (h : Kept out fs fs' q) (hp : p = headerPath out ∨ p = codePath out)
    (part : Option Bytes) : Kept out fs (fs'.putPart p part) q := by
  by_cases hq : q = p
  · subst hq
    rcases hp with hp | hp
    · exact .inr (.inl hp)
    · exact .inr (.inr (.inl hp))
  · have he := entries_putPart_of_ne fs' part hq
    unfold Kept
    rw [he]
    exact h

theorem Headed.kept (h : Headed tools out fs fs') : Kept out fs fs' q := by
  obtain ⟨fs1, hgrows, rfl⟩ := h.touched
  exact (kept_of_grows hgrows).putPart (.inl rfl) (some tools.header)

theorem Generated.kept (h : Generated tools fs description out r fs') : Kept out fs fs' q := by
  cases h with
  | refused => exact .inl rfl
  | noDirectory _ _ hgrows => exact kept_of_grows hgrows
  | noHeader _ _ hgrows _ => exact (kept_of_grows hgrows).putPart (.inl rfl) _
  | noCode _ part _ h => exact h.kept.putPart (.inr rfl) part
  | done _ h _ => exact h.kept.putPart (.inr rfl) (some _)

theorem Generated.files_of_refused (h : Generated tools fs description out r fs')
    (hnone : ∀ code, ¬ Makes tools fs description code) : fs' = fs := by
  cases h with
  | refused => rfl
  | noDirectory hmakes => exact absurd hmakes (hnone _)
  | noHeader hmakes => exact absurd hmakes (hnone _)
  | noCode _ _ hmakes => exact absurd hmakes (hnone _)
  | done hmakes => exact absurd hmakes (hnone _)

/-- Without the directory for it neither the header nor the code is touched. -/
theorem Generated.entries_of_noDirectory (h : Generated tools fs description out r fs')
    (hfails : ((Disk.createDirectories (headerDirectory out)).run fs).1 ≠ .ok ()) :
    fs'.entries (headerPath out) = fs.entries (headerPath out) ∧
      fs'.entries (codePath out) = fs.entries (codePath out) := by
  have hgoes : ∀ fs1, (Disk.createDirectories (headerDirectory out)).run fs ≠ (.ok (), fs1) :=
    fun fs1 hdir => hfails (by rw [hdir])
  have hnot : ∀ fs2, ¬ Headed tools out fs fs2 := by
    intro fs2 h
    obtain ⟨r, fs1, hdir, -⟩ := Disk.run_createDirectories fs (headerDirectory out)
    cases r with
    | ok u => exact hgoes fs1 hdir
    | error e =>
      have hrun := h.run
      rw [writeHeader, run_bind_error hdir] at hrun
      cases hrun
  cases h with
  | refused => exact ⟨rfl, rfl⟩
  | noDirectory _ _ hgrows =>
    exact ⟨hgrows.entries_eq (headerPath_not_leadsTo_headerDirectory out),
      hgrows.entries_eq (codePath_not_leadsTo_headerDirectory out)⟩
  | noHeader _ hdir => exact absurd hdir (hgoes _)
  | noCode _ _ _ h => exact absurd h (hnot _)
  | done _ h => exact absurd h (hnot _)

/-- Without the header the code is not touched. -/
theorem Generated.entries_of_noHeader (h : Generated tools fs description out r fs')
    (hfails : ((writeHeader tools out).run fs).1 ≠ .ok ()) :
    fs'.entries (codePath out) = fs.entries (codePath out) := by
  have hnot : ∀ fs2, ¬ Headed tools out fs fs2 := fun fs2 h => hfails (by rw [h.run])
  cases h with
  | refused => rfl
  | noDirectory _ _ hgrows => exact hgrows.entries_eq (codePath_not_leadsTo_headerDirectory out)
  | noHeader _ _ hgrows =>
    rw [entries_putPart_of_ne _ _ (codePath_ne_headerPath out)]
    exact hgrows.entries_eq (codePath_not_leadsTo_headerDirectory out)
  | noCode _ _ _ h => exact absurd h (hnot _)
  | done _ h => exact absurd h (hnot _)

/-- What is to be compiled is what has just been made, with the header that it needs. -/
theorem Generated.contents {p : Path} (h : Generated tools fs description out (.ok p) fs') :
    p = codePath out ∧ ∃ code, Makes tools fs description code ∧
      fs'.content? (codePath out) = some code ∧
      fs'.content? (headerPath out) = some tools.header := by
  cases h with
  | @done fs2 code hmakes h hfound =>
    have hheader : (fs2.put (codePath out) (.file code)).find (headerPath out) =
        .ok (.file tools.header) := by
      rw [find_put_of_not_leadsTo _ _ (codePath_not_leadsTo_headerPath out)]
      exact h.found
    exact ⟨rfl, code, hmakes, content?_of_find hfound, content?_of_find hheader⟩

/-! ### The whole build -/

/-- The line that names what the build depends on. -/
def dependency (package : Path) : String :=
  "cargo:rerun-if-changed=" ++ (descriptionPath package).display

/-- The lines that say how to link. -/
def linking (out : Path) : List String :=
  ["cargo:rustc-link-lib=static=" ++ libraryName,
    "cargo:rustc-link-search=native=" ++ out.display]

/-- What the compiler is run on. -/
def compilation (files : FileSystem) (code out : Path) : Compilation :=
  ⟨files.content? code, files.content? (headerPath out)⟩

section

variable {code : Path} {w : World}

theorem run_runCompiler (tools : Toolchain) (code out : Path) (w : World) :
    (runCompiler tools code out).run w = (.ok (tools.library? (compilation w.files code out)),
      { w with compilations := w.compilations ++ [compilation w.files code out] }) := rfl

theorem run_compileParser_linked {library : Bytes}
    (h : tools.library? (compilation w.files code out) = some library) :
    (compileParser tools code out).run w =
      (.ok .linked, ⟨w.files.put (libraryPath out) (.file library), w.printed ++ linking out,
        w.compilations ++ [compilation w.files code out]⟩) := by
  have hprinted : w.printed ++ linking out = w.printed ++
      ["cargo:rustc-link-lib=static=" ++ libraryName] ++
      ["cargo:rustc-link-search=native=" ++ out.display] := by
    rw [List.append_assoc]
    rfl
  rw [hprinted, compileParser, run_bind_ok (run_runCompiler tools code out w), h]
  rfl

theorem run_compileParser_stopped (h : tools.library? (compilation w.files code out) = none) :
    (compileParser tools code out).run w = (.ok .stopped,
      { w with compilations := w.compilations ++ [compilation w.files code out] }) := by
  rw [compileParser, run_bind_ok (run_runCompiler tools code out w), h]
  rfl

end

/-- A build that knows its directories ends as making the code does, or goes on to compile it. -/
theorem run_script {environment : String → Option Path} {package : Path}
    (hpackage : environment "CARGO_MANIFEST_DIR" = some package)
    (hout : environment "OUT_DIR" = some out) (tools : Toolchain) (fs : FileSystem) :
    ∃ r files, Generated tools fs (descriptionPath package) out r files ∧
      ((∃ f, r = .error f ∧ (script tools environment).run ⟨fs, [], []⟩ =
          (.error f, ⟨files, [dependency package], []⟩)) ∨
        ∃ p, r = .ok p ∧ (script tools environment).run ⟨fs, [], []⟩ =
          (compileParser tools p out).run ⟨files, [dependency package], []⟩) := by
  have hrun : (script tools environment).run ⟨fs, [], []⟩ =
      (generateParser tools (descriptionPath package) out >>= fun code =>
        compileParser tools code out).run ⟨fs, [dependency package], []⟩ := by
    unfold script directoryOf
    rw [hpackage, hout]
    rfl
  obtain ⟨r, files, hmade, hgenerated⟩ :=
    run_generateParser tools (descriptionPath package) out ⟨fs, [dependency package], []⟩
  refine ⟨r, files, hgenerated, ?_⟩
  rw [hrun]
  cases r with
  | error f => exact .inl ⟨f, rfl, run_bind_error hmade⟩
  | ok p => exact .inr ⟨p, rfl, run_bind_ok hmade⟩

theorem run_script_unset {environment : String → Option Path}
    (h : environment "CARGO_MANIFEST_DIR" = none ∨ environment "OUT_DIR" = none)
    (tools : Toolchain) (w : World) :
    ∃ name, (script tools environment).run w = (.error (.variableNotSet name), w) := by
  unfold script directoryOf
  cases hpackage : environment "CARGO_MANIFEST_DIR" with
  | none => exact ⟨_, rfl⟩
  | some package =>
    cases hout : environment "OUT_DIR" with
    | none => exact ⟨_, rfl⟩
    | some out =>
      rw [hpackage, hout] at h
      rcases h with h | h <;> cases h

theorem dependency_not_mem_linking (package out : Path) : dependency package ∉ linking out := by
  intro h
  have hlinking : (dependency package).toList[7]? = some 'u' := by
    rcases List.mem_cons.mp h with h | h
    · rw [h, String.toList_append]
      rfl
    · rw [List.mem_singleton.mp h, String.toList_append]
      rfl
  have hchanged : ∀ s : String, ("cargo:rerun-if-changed=" ++ s).toList[7]? = some 'e' := by
    intro s
    rw [String.toList_append]
    rfl
  have hletter := (hchanged (descriptionPath package).display).symm.trans hlinking
  exact absurd (Option.some.inj hletter) (by decide)

/-- What a build for `package` that started with the files `fs` may leave behind. -/
structure Staged (tools : Toolchain) (fs : FileSystem) (package out : Path)
    (result : Except Failure Ending) (w : World) : Prop where
  /-- It says once what it depends on, however it ends. -/
  announced : w.printed.count (dependency package) = 1
  /-- Where no code can be made for the grammar, nothing is touched. -/
  refused : (∀ code, ¬ Makes tools fs (descriptionPath package) code) → w.files = fs
  noDirectory : ((Disk.createDirectories (headerDirectory out)).run fs).1 ≠ .ok () →
    w.files.entries (headerPath out) = fs.entries (headerPath out) ∧
      w.files.entries (codePath out) = fs.entries (codePath out)
  noHeader : ((writeHeader tools out).run fs).1 ≠ .ok () →
    w.files.entries (codePath out) = fs.entries (codePath out)
  compiledOnce : w.compilations.length ≤ 1
  /-- The compiler finds the code for the grammar as it has just been read, and its header. -/
  compiled : ∀ c ∈ w.compilations, ∃ code, Makes tools fs (descriptionPath package) code ∧
    c = ⟨some code, some tools.header⟩
  finished : (∃ e, result = .ok e) ↔ w.compilations ≠ []
  /-- It comes to a good end where the compiler makes a library. -/
  linked : result = .ok .linked ↔ ∃ c ∈ w.compilations, tools.library? c ≠ none

variable {package : Path}

theorem staged_of_error {f : Failure}
    (h : Generated tools fs (descriptionPath package) out (.error f) fs') :
    Staged tools fs package out (.error f) ⟨fs', [dependency package], []⟩ where
  announced := List.count_singleton_self
  refused := h.files_of_refused
  noDirectory := h.entries_of_noDirectory
  noHeader := h.entries_of_noHeader
  compiledOnce := Nat.zero_le 1
  compiled := by simp
  finished := by simp
  linked := by simp

/-- Code that has been made is compiled together with its header. -/
theorem Generated.compilation_eq {p : Path}
    (h : Generated tools fs (descriptionPath package) out (.ok p) fs') :
    ∃ code, Makes tools fs (descriptionPath package) code ∧
      compilation fs' p out = ⟨some code, some tools.header⟩ := by
  obtain ⟨rfl, code, hmakes, hcode, hheader⟩ := h.contents
  exact ⟨code, hmakes, by rw [compilation, hcode, hheader]⟩

theorem staged_of_stopped {p : Path}
    (h : Generated tools fs (descriptionPath package) out (.ok p) fs')
    (hnone : tools.library? (compilation fs' p out) = none) :
    Staged tools fs package out (.ok .stopped)
      ⟨fs', [dependency package], [compilation fs' p out]⟩ := by
  obtain ⟨code, hmakes, hfound⟩ := h.compilation_eq
  refine ⟨List.count_singleton_self, fun hno => absurd hmakes (hno code),
    h.entries_of_noDirectory, h.entries_of_noHeader, Nat.le_refl 1, ?_, by simp, by simp [hnone]⟩
  intro c hc
  exact ⟨code, hmakes, (List.mem_singleton.mp hc).trans hfound⟩

theorem staged_of_linked {p : Path} {library : Bytes}
    (h : Generated tools fs (descriptionPath package) out (.ok p) fs')
    (hlibrary : tools.library? (compilation fs' p out) = some library) :
    Staged tools fs package out (.ok .linked) ⟨fs'.put (libraryPath out) (.file library),
      dependency package :: linking out, [compilation fs' p out]⟩ := by
  obtain ⟨code, hmakes, hfound⟩ := h.compilation_eq
  have hunder : (fs'.put (libraryPath out) (.file library)).entries (headerPath out) =
      fs'.entries (headerPath out) := entries_put_of_ne fs' _ (headerPath_ne_libraryPath out)
  have hbeside : (fs'.put (libraryPath out) (.file library)).entries (codePath out) =
      fs'.entries (codePath out) := entries_put_of_ne fs' _ (codePath_ne_libraryPath out)
  refine ⟨?_, fun hno => absurd hmakes (hno code), fun hfails => ?_, fun hfails => ?_,
    Nat.le_refl 1, ?_, by simp, by simp [hlibrary]⟩
  · rw [List.count_cons_self, List.count_eq_zero.mpr (dependency_not_mem_linking package out)]
  · rw [hunder, hbeside]
    exact h.entries_of_noDirectory hfails
  · rw [hbeside]
    exact h.entries_of_noHeader hfails
  · intro c hc
    exact ⟨code, hmakes, (List.mem_singleton.mp hc).trans hfound⟩

/-- A build goes through its stages whatever it finds and wherever it fails: without its variables
it does nothing, otherwise it leaves what `Staged` says; and making the code touches nothing but the
two files and missing directories. -/
theorem script_staged (tools : Toolchain) (environment : String → Option Path)
    (fs : FileSystem) :
    (environment "CARGO_MANIFEST_DIR" = none ∨ environment "OUT_DIR" = none →
      ∃ name, (script tools environment).run ⟨fs, [], []⟩ =
        (.error (.variableNotSet name), ⟨fs, [], []⟩)) ∧
    (∀ package out, environment "CARGO_MANIFEST_DIR" = some package →
      environment "OUT_DIR" = some out →
        Staged tools fs package out ((script tools environment).run ⟨fs, [], []⟩).1
          ((script tools environment).run ⟨fs, [], []⟩).2) ∧
    ∀ description out w, ∃ r files, (generateParser tools description out).run w =
      (r, { w with files }) ∧ ∀ q, Kept out w.files files q := by
  refine ⟨fun h => run_script_unset h tools _, fun package out hpackage hout => ?_,
    fun description out w => ?_⟩
  · obtain ⟨r, files, hgenerated, ⟨f, rfl, hrun⟩ | ⟨p, rfl, hrun⟩⟩ :=
      run_script hpackage hout tools fs
    · rw [hrun]
      exact staged_of_error hgenerated
    · rw [hrun]
      cases hlibrary : tools.library? (compilation files p out) with
      | none =>
        rw [run_compileParser_stopped hlibrary]
        exact staged_of_stopped hgenerated hlibrary
      | some library =>
        rw [run_compileParser_linked hlibrary]
        exact staged_of_linked hgenerated hlibrary
  · obtain ⟨r, files, hrun, hgenerated⟩ := run_generateParser tools description out w
    exact ⟨r, files, hrun, fun q => hgenerated.kept⟩

/-- A package in `m` that is built in `o`, where an old header is found. -/
def smallFiles : FileSystem where
  entries := fun q =>
    if q = .root "m" ∨ q = .entry (.root "m") "src" ∨ q = .root "o" ∨
        q = headerDirectory (.root "o") then
      some .directory
    else if q = descriptionPath (.root "m") then some (.file [0x7b, 0x7d])
    else if q = headerPath (.root "o") then some (.file [0])
    else none
  faults := fun _ => none

def smallEnvironment (name : String) : Option Path :=
  if name = "CARGO_MANIFEST_DIR" then some (.root "m")
  else if name = "OUT_DIR" then some (.root "o")
  else none

def smallTools : Toolchain where
  generate := fun text => if text = "\x7b\x7d" then some ("rue", [1]) else none
  header := [2]
  archive := fun code header => some (code ++ header)

/-- Tools with a compiler that makes no library. -/
def brokenTools : Toolchain := { smallTools with archive := fun _ _ => none }

theorem script_staged_small :
    Staged smallTools smallFiles (.root "m") (.root "o") (.ok .linked)
        ((script smallTools smallEnvironment).run ⟨smallFiles, [], []⟩).2 ∧
      ((script smallTools smallEnvironment).run ⟨smallFiles, [], []⟩).2.compilations =
        [⟨some [1], some [2]⟩] ∧
      Staged brokenTools smallFiles (.root "m") (.root "o") (.ok .stopped)
        ((script brokenTools smallEnvironment).run ⟨smallFiles, [], []⟩).2 ∧
      ∃ name, (script smallTools fun _ => none).run ⟨smallFiles, [], []⟩ =
        (.error (.variableNotSet name), ⟨smallFiles, [], []⟩) :=
  ⟨(script_staged smallTools smallEnvironment smallFiles).2.1 _ _ rfl rfl, rfl,
    (script_staged brokenTools smallEnvironment smallFiles).2.1 _ _ rfl rfl,
    (script_staged smallTools (fun _ => none) smallFiles).1 (.inl rfl)⟩

end Build

end RueSyntax
