import LatencyOS.Editor.Session
import LatencyOS.Fs.Destination
import LatencyOS.Fs.PathBuffer

/-!
# The editor and its file

The editor loads a file by its path and keeps the first 32 bytes of that path as the name to save
under.  What is saved goes to the file that was loaded exactly when these bytes name it too.

## Main results

* `savesBack_of_same`, `same_of_savesBack`: both directions
* `saves_iff`: the editor saves what it loaded exactly when the kept name names it
-/

namespace LatencyOS.Editor

open Fs

/-- The name of a buffer without one. -/
def untitled : Str := "untitled.pul".toList

/-- The editor, the name of its buffer and the file system. -/
structure Workspace where
  editor : PulseEditor
  filename : List UInt8
  fs : LatencyFS

/-- `set_filename` -/
def setFilename (name : Str) : List UInt8 := (utf8 name).take 32

/-- `filename_str` -/
def filenameStr (filename : List UInt8) : Str :=
  if filename.length = 0 then untitled else (fromUtf8 filename).getD untitled

namespace Workspace

variable (cwd : Str) (w : Workspace)

/-- `load_file` -/
def loadFile (filename : Str) : Option Workspace := do
  let editor ← w.editor.loadFile (Fs.read cwd filename w.fs)
  some { w with editor, filename := setFilename filename }

/-- `save_file`: a write that fails is only reported. -/
def saveFile : Option Workspace := do
  let data ← w.editor.bytes
  some { w with fs := step w.fs (cwd, .write (filenameStr w.filename) data) }

/-- What a key does to the buffer and to the files. -/
def exec : Command → Option Workspace
  | .save => w.saveFile cwd
  | c => do
    let editor ← w.editor.exec c
    some { w with editor }

/-- Whatever keys follow, but for those that run the program, saving writes the buffer to the path;
saving at once leaves every file of the table. -/
structure SavesBack (p : Str) : Prop where
  saves : ∀ cs : List Command, (∀ c ∈ cs, c ≠ .run) →
    ∃ w' data w'', runAll (exec cwd) w cs = some w' ∧ w'.editor.bytes = some data ∧
      w'.saveFile cwd = some w'' ∧ Fs.write cwd p data w'.fs = .ok w''.fs
  unchanged : ∀ w', w.saveFile cwd = some w' → ∀ (i : ℕ) (f : FileEntry),
    w.fs.files[i]? = some f → f.used = true → f.isDir = false → w'.fs.files[i]? = some f

end Workspace

/-- The first 32 bytes of a path name the same as the path; bytes that are no text stand for the
name of a buffer without one. -/
def KeepsName (cwd p : Str) : Prop :=
  ∀ q, (utf8 q = (utf8 p).take 32 ∨ (¬ ∃ s, utf8 s = (utf8 p).take 32) ∧ q = untitled) →
    destination cwd q = destination cwd p

variable {cwd p q : Str} {w w' : Workspace} {content : List UInt8}

/-! ## The name that is kept -/

theorem utf8_ne_nil {s : Str} (h : s ≠ []) : utf8 s ≠ [] := by
  obtain ⟨c, s', rfl⟩ := List.exists_cons_of_ne_nil h
  intro hnil
  have hlen := length_le_byteLen (c :: s')
  rw [byteLen, hnil] at hlen
  exact absurd hlen (by simp)

/-- The name to save under is that of the first 32 bytes. -/
theorem filenameStr_setFilename (h : p ≠ []) :
    filenameStr (setFilename p) = q ↔ utf8 q = (utf8 p).take 32 ∨
      (¬ ∃ s, utf8 s = (utf8 p).take 32) ∧ q = untitled := by
  have hne : (setFilename p).length ≠ 0 := by
    rw [setFilename, List.length_take]
    have := List.length_pos_iff.mpr (utf8_ne_nil h)
    omega
  rw [filenameStr, if_neg hne, setFilename]
  cases hdecode : fromUtf8 ((utf8 p).take 32) with
  | some s =>
    have hs := fromUtf8_eq_some.mp hdecode
    rw [Option.getD_some]
    constructor
    · rintro rfl
      exact .inl hs
    · rintro (hq | ⟨hnone, -⟩)
      · rw [← fromUtf8_eq_some, hdecode] at hq
        exact Option.some.inj hq
      · exact absurd ⟨s, hs⟩ hnone
  | none =>
    have hnone : ¬ ∃ s, utf8 s = (utf8 p).take 32 := by
      rintro ⟨s, hs⟩
      rw [← fromUtf8_eq_some, hdecode] at hs
      cases hs
    rw [Option.getD_none]
    constructor
    · rintro rfl
      exact .inr ⟨hnone, rfl⟩
    · rintro (hq | ⟨-, rfl⟩)
      · exact absurd ⟨q, hq⟩ hnone
      · rfl

theorem keepsName_iff (h : p ≠ []) :
    KeepsName cwd p ↔ destination cwd (filenameStr (setFilename p)) = destination cwd p := by
  constructor
  · exact fun hkeeps => hkeeps _ ((filenameStr_setFilename h).mp rfl)
  · intro hdest q hq
    rw [← (filenameStr_setFilename h).mpr hq, hdest]

/-! ## Keys between loading and saving -/

namespace Workspace

theorem loadFile_eq (prev : Workspace) (cwd p : Str) :
    ∃ w, prev.loadFile cwd p = some w ∧ w.editor.Bounded ∧ w.filename = setFilename p ∧
      w.fs = prev.fs ∧
      w.editor.bytes = some (((Fs.read cwd p prev.fs).getD []).take maxEditorBuf) := by
  obtain ⟨e, he, hbounded, htext⟩ := PulseEditor.loadFile_spec prev.editor (Fs.read cwd p prev.fs)
  refine ⟨⟨e, setFilename p, prev.fs⟩, ?_, hbounded, rfl, rfl, ?_⟩
  · rw [loadFile, he]
    rfl
  · rw [PulseEditor.bytes_eq hbounded, ← hbounded.append_text, htext, List.nil_append]

/-- Every key but those that save leaves the files. -/
theorem exec_editor {c : Command} (h : w.editor.Bounded) (hc : c ≠ .save) :
    ∃ e, w.exec cwd c = some { w with editor := e } ∧ e.Bounded := by
  obtain ⟨e, he, hbounded, -⟩ := PulseEditor.exec_spec h c
  refine ⟨e, ?_, hbounded⟩
  cases c with
  | save => exact absurd rfl hc
  | _ =>
    rw [exec, he]
    · rfl
    all_goals exact Command.noConfusion

theorem saveFile_eq (h : w.editor.Bounded) :
    w.saveFile cwd = some { w with
      fs := step w.fs (cwd, .write (filenameStr w.filename) (Cells.slice w.editor.buffer 0
        w.editor.bufLen)) } := by
  rw [saveFile, PulseEditor.bytes_eq h]
  rfl

theorem length_slice_le (h : w.editor.Bounded) :
    (Cells.slice w.editor.buffer 0 w.editor.bufLen).length ≤ maxFileSize := by
  rw [Cells.length_slice]
  exact h.bufLen

/-- The buffer is in bounds and is saved to a path that takes it. -/
structure Ready (cwd p : Str) (w : Workspace) : Prop where
  bounded : w.editor.Bounded
  filename : w.filename = setFilename p
  accepts : Accepts cwd p w.fs

/-- A buffer whose name names the path is saved there. -/
theorem Ready.save (h : w.Ready cwd p)
    (hsame : destination cwd (filenameStr (setFilename p)) = destination cwd p) :
    ∃ w', w.saveFile cwd = some w' ∧ Fs.write cwd p
      (Cells.slice w.editor.buffer 0 w.editor.bufLen) w.fs = .ok w'.fs ∧ w'.Ready cwd p := by
  obtain ⟨fs', hwrite⟩ := h.accepts _ (length_slice_le h.bounded)
  obtain ⟨d, hd⟩ := destination_of_write hwrite
  have hstep : step w.fs (cwd, .write (filenameStr w.filename) (Cells.slice w.editor.buffer 0
      w.editor.bufLen)) = fs' := by
    rw [step, Fs.exec, h.filename, write_congr hd (hsame.trans hd), hwrite]
  refine ⟨_, saveFile_eq h.bounded, ?_, h.bounded, h.filename, ?_⟩
  · rw [hstep, hwrite]
  · rw [hstep]
    exact accepts_write hwrite

theorem Ready.exec {c : Command} (h : w.Ready cwd p)
    (hsame : destination cwd (filenameStr (setFilename p)) = destination cwd p) :
    ∃ w', w.exec cwd c = some w' ∧ w'.Ready cwd p := by
  by_cases hc : c = .save
  · rw [hc]
    obtain ⟨w', hsave, -, hready⟩ := h.save hsame
    exact ⟨w', hsave, hready⟩
  · obtain ⟨e, he, hbounded⟩ := exec_editor h.bounded hc
    exact ⟨_, he, hbounded, h.filename, h.accepts⟩

/-- A buffer that is cleared and given one character. -/
theorem typed_spec (cwd : Str) (w : Workspace) (b : UInt8) :
    ∃ e, runAll (Workspace.exec cwd) w [.clear, .insertChar b] = some { w with editor := e } ∧
      e.Bounded ∧ Cells.slice e.buffer 0 e.bufLen = [b] := by
  have hclear : ({ w.editor with bufLen := 0, cursor := 0 } : PulseEditor).Bounded :=
    ⟨Nat.le_refl 0, Nat.zero_le _⟩
  obtain ⟨e, he, hbounded, htext⟩ := PulseEditor.insertChar_spec hclear b
  refine ⟨e, ?_, hbounded, ?_⟩
  · simp only [runAll, Workspace.exec, PulseEditor.exec, Option.bind_eq_bind, Option.bind_some, he]
  · have hroom : (0 : ℕ) ≠ maxEditorBuf - 1 := by decide
    rw [← hbounded.append_text, htext.mpr hroom]
    rfl

end Workspace

open Workspace

/-- A buffer whose name names its path is saved back. -/
theorem savesBack_of_same {prev : Workspace} {fs' : LatencyFS}
    (haccept : Fs.write cwd p content prev.fs = .ok fs')
    (hsize : ∀ f ∈ prev.fs.files, f.data.length ≤ maxFileSize)
    (hsame : destination cwd (filenameStr (setFilename p)) = destination cwd p)
    (hload : prev.loadFile cwd p = some w) : w.SavesBack cwd p := by
  obtain ⟨w', hw', hbounded, hname, hfs, hbytes⟩ := loadFile_eq prev cwd p
  obtain rfl : w' = w := Option.some.inj (hw'.symm.trans hload)
  have hready : w'.Ready cwd p := ⟨hbounded, hname, by rw [hfs]; exact accepts_of_write haccept⟩
  refine ⟨fun cs hcs => ?_, fun w'' hsave i f hf hused hdir => ?_⟩
  · obtain ⟨w₁, hrun, hready₁⟩ := runAll_invariant (I := Ready cwd p)
      (P := fun _ c => c ≠ Command.run) (fun w c h _ => h.exec hsame) hready (alongRun_of_mem hcs)
    obtain ⟨w₂, hsave, hwrite, -⟩ := hready₁.save hsame
    exact ⟨w₁, _, w₂, hrun, PulseEditor.bytes_eq hready₁.bounded, hsave, hwrite⟩
  · obtain ⟨w₂, hsave₂, hwrite, -⟩ := hready.save hsame
    obtain rfl : w'' = w₂ := Option.some.inj (hsave.symm.trans hsave₂)
    refine files_write_read hwrite (fun data hread hlen => ?_) (by rw [hfs]; exact hsize) hf hused
      hdir
    rw [PulseEditor.bytes_eq hbounded, ← hfs, hread, Option.getD_some,
      List.take_of_length_le (show data.length ≤ maxEditorBuf from hlen)] at hbytes
    exact Option.some.inj hbytes

/-- A buffer that is saved back has a name that names its path. -/
theorem same_of_savesBack {prev : Workspace} {fs' : LatencyFS}
    (haccept : Fs.write cwd p content prev.fs = .ok fs') (hload : prev.loadFile cwd p = some w)
    (hback : w.SavesBack cwd p) :
    destination cwd (filenameStr (setFilename p)) = destination cwd p := by
  obtain ⟨w', hw', -, hname, -⟩ := loadFile_eq prev cwd p
  obtain rfl : w' = w := Option.some.inj (hw'.symm.trans hload)
  obtain ⟨d, hd⟩ := destination_of_write haccept
  by_contra hne
  rw [hd] at hne
  -- the path would start with whatever byte is typed, and nothing has written it
  have hfirst (b : UInt8) : firstByte w'.fs d = some b := by
    obtain ⟨e, he, hbounded, hbuffer⟩ := typed_spec cwd w' b
    obtain ⟨w₁, data, w₂, hrun, hbytes, hsave, hwrite⟩ := hback.saves [.clear, .insertChar b]
      (by simp)
    obtain rfl : _ = w₁ := Option.some.inj (he.symm.trans hrun)
    obtain rfl : _ = data := Option.some.inj ((PulseEditor.bytes_eq hbounded).symm.trans hbytes)
    rw [saveFile_eq hbounded] at hsave
    obtain rfl := Option.some.inj hsave
    rw [hbuffer] at hwrite
    have hwritten := firstByte_write hwrite hd
    dsimp only at hwritten
    rw [firstByte_step_ne (by rw [hname]; exact hne)] at hwritten
    exact hwritten
  exact absurd (Option.some.inj ((hfirst 0x61).symm.trans (hfirst 0x62))) (by decide)

/-- A path that takes a write is loaded into the editor; whatever keys follow, the buffer is saved
to what the path names, and saving at once leaves every file, exactly when the first 32 bytes of
the path name that too. -/
theorem saves_iff (prev : Workspace) (cwd p : Str) {content : List UInt8} {fs' : LatencyFS}
    (haccept : Fs.write cwd p content prev.fs = .ok fs')
    (hsize : ∀ f ∈ prev.fs.files, f.data.length ≤ maxFileSize) :
    ∃ w, prev.loadFile cwd p = some w ∧ (w.SavesBack cwd p ↔ KeepsName cwd p) := by
  obtain ⟨w, hload, -⟩ := loadFile_eq prev cwd p
  have hne : p ≠ [] := by
    rintro rfl
    obtain ⟨d, hd⟩ := destination_of_write haccept
    rw [destination_table (by decide)] at hd
    cases hd
  refine ⟨w, hload, ?_⟩
  rw [keepsName_iff hne]
  exact ⟨same_of_savesBack haccept hload, fun h => savesBack_of_same haccept hsize h hload⟩

/-- An editor before anything was loaded. -/
def emptyWorkspace (fs : LatencyFS) : Workspace := ⟨⟨fun _ => 0, 0, 0, 1⟩, [], fs⟩

/-- A path of 32 bytes, and one of 33. -/
def shortPath : Str := '/' :: List.replicate 31 'a'
def longPath : Str := '/' :: List.replicate 32 'a'

/-- A file under each of them. -/
def twoFiles : LatencyFS :=
  Fs.run (.new .zero) [(['/'], .write shortPath [1]), (['/'], .write longPath [2])]

theorem twoFiles_size : ∀ f ∈ twoFiles.files, f.data.length ≤ maxFileSize := by decide +kernel

theorem shortPath_saves : ∃ w, (emptyWorkspace twoFiles).loadFile ['/'] shortPath = some w ∧
    (w.SavesBack ['/'] shortPath ↔ KeepsName ['/'] shortPath) := by
  have hwrite : Fs.write ['/'] shortPath [3] twoFiles =
      .ok (step twoFiles (['/'], .write shortPath [3])) := rfl
  exact saves_iff (emptyWorkspace twoFiles) ['/'] shortPath hwrite twoFiles_size

/-- The path of 33 bytes is saved to the file of the one that is shorter. -/
theorem longPath_saved_elsewhere :
    ∃ w, (emptyWorkspace twoFiles).loadFile ['/'] longPath = some w ∧
      ¬ w.SavesBack ['/'] longPath := by
  have hwrite : Fs.write ['/'] longPath [3] twoFiles =
      .ok (step twoFiles (['/'], .write longPath [3])) := rfl
  obtain ⟨w, hload, -⟩ := loadFile_eq (emptyWorkspace twoFiles) ['/'] longPath
  refine ⟨w, hload, fun hback => ?_⟩
  exact absurd (same_of_savesBack hwrite hload hback) (by decide +kernel)

end LatencyOS.Editor
