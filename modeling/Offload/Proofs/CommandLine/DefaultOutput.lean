import Offload.CommandLine.Run
import Offload.Proofs.Files.Tree
import Offload.Proofs.Split.Linkage

/-!
# Where a split writes by default

Without paths for its outputs, a split writes the host text beside its input under a marked name,
and the device text to the input's path with the configured suffix. The marked name is never that of
the input. The suffix is not looked at when settings are accepted, so it can lead to the input or to
the host text.
-/

namespace Offload.CommandLine

open Offload.Files Offload.Split

variable {α β : Type} {t t' : FileTree} {f : α → ExceptT Failure (StateM FileTree) β}

/-- What a command gives on a file tree, and the tree that it leaves. -/
def onTree (x : ExceptT Failure (StateM FileTree) α) (t : FileTree) :
    Except Failure α × FileTree := x.run.run t

theorem onTree_bind_ok {x : ExceptT Failure (StateM FileTree) α}
    {a : α} (h : onTree x t = (.ok a, t')) : onTree (x >>= f) t = onTree (f a) t' := by
  unfold onTree at *
  rw [ExceptT.run_bind, StateT.run_bind, h]
  rfl

theorem onTree_bind_error {x : ExceptT Failure (StateM FileTree) α}
    {e : Failure} (h : onTree x t = (.error e, t')) : onTree (x >>= f) t = (.error e, t') := by
  unfold onTree at *
  rw [ExceptT.run_bind, StateT.run_bind, h]
  rfl

/-- A step on the files alone. -/
theorem onTree_files {y : StateM FileTree α} {a : α}
    (h : y.run t = (a, t')) : onTree (liftM y >>= f) t = onTree (f a) t' := by
  apply onTree_bind_ok
  change (do let p ← y.run t; pure (Except.ok p.1, p.2) : Id _) = _
  rw [h]
  rfl

section

variable {path text : String} {s : Config.Settings}

theorem run_read : (FileTree.access.read path).run t = (t.read path, t) := rfl

theorem onTree_readFile_ok (h : t.read path = .ok text) :
    onTree (readFile FileTree.access path) t = (.ok text, t) := by
  rw [readFile, onTree_files run_read, h]
  rfl

theorem onTree_readFile_error {e : FileError} (h : t.read path = .error e) :
    onTree (readFile FileTree.access path) t = (.error (.file path e), t) := by
  rw [readFile, onTree_files run_read, h]
  rfl

theorem onTree_writeFile_ok (h : t.write path text = .ok t') :
    onTree (writeFile FileTree.access path text) t = (.ok (), t') := by
  have hrun : (FileTree.access.write path text).run t = (.ok (), t') := by
    simp only [FileTree.access, bind_pure_comp, StateT.run_bind, StateT.run_get, pure_bind, h]
    rfl
  rw [writeFile, onTree_files hrun]
  rfl

theorem onTree_writeFile_error {e : FileError} (h : t.write path text = .error e) :
    onTree (writeFile FileTree.access path text) t = (.error (.file path e), t) := by
  have hrun : (FileTree.access.write path text).run t = (.error e, t) := by
    simp only [FileTree.access, bind_pure_comp, StateT.run_bind, StateT.run_get, pure_bind, h]
    rfl
  rw [writeFile, onTree_files hrun]
  rfl

theorem validate_of_parse {content : String}
    (h : Config.parse content = .ok s) : Config.validate s = .ok s := by
  unfold Config.parse at h
  split at h
  · cases h
  · obtain ⟨s', -, hvalid⟩ := except_bind_ok.mp h
    have heq : s' = s := by
      unfold Config.validate at hvalid
      split_ifs at hvalid
      exact Except.ok.inj hvalid
    rwa [heq] at hvalid

/-- Whether settings are accepted does not depend on the suffix. -/
theorem validate_suffix (h : Config.validate s = .ok s) (suffix : String) :
    Config.validate { s with split.deviceSuffix := suffix } =
      .ok { s with split.deviceSuffix := suffix } := by
  unfold Config.validate at h ⊢
  split_ifs at h with harity hnames
  rw [if_neg harity]
  exact if_neg hnames

/-- Settings are read without a change to the files, and accepted. -/
theorem onTree_loadConfig (path : String) (t : FileTree) :
    (∃ f, onTree (loadConfig FileTree.access path) t = (.error f, t)) ∨
      ∃ s, onTree (loadConfig FileTree.access path) t = (.ok s, t) ∧ Config.validate s = .ok s := by
  rw [loadConfig, onTree_files run_read]
  cases t.read path with
  | error e => exact .inl ⟨_, rfl⟩
  | ok text =>
    dsimp only
    cases hparse : Config.parse text with
    | error e => exact .inl ⟨_, rfl⟩
    | ok s =>
      exact .inr ⟨s, rfl, validate_of_parse hparse⟩

theorem onTree_settings_default (hread : t.read defaultConfig = .ok text)
    (hparse : Config.parse text = .ok s) :
    onTree (settings FileTree.access none) t = (.ok s, t) := by
  have hrun : (FileTree.access.isFile defaultConfig).run t = (true, t) := by
    simp only [FileTree.access, bind_pure_comp, StateT.run_bind, StateT.run_get, pure_bind, hread]
    rfl
  rw [settings, onTree_files hrun]
  change onTree (loadConfig FileTree.access defaultConfig) t = _
  rw [loadConfig, onTree_files run_read, hread]
  simp only [hparse]
  rfl

theorem onTree_settings (config : Option String) (t : FileTree) :
    (∃ f, onTree (settings FileTree.access config) t = (.error f, t)) ∨
      ∃ s, onTree (settings FileTree.access config) t = (.ok s, t) ∧ Config.validate s = .ok s := by
  cases config with
  | some path => exact onTree_loadConfig path t
  | none =>
    have hrun : ∃ b, (FileTree.access.isFile defaultConfig).run t = (b, t) := by
      cases h : t.read defaultConfig with
      | ok text => exact ⟨true, by simp [FileTree.access, h]; rfl⟩
      | error e => exact ⟨false, by simp [FileTree.access, h]; rfl⟩
    obtain ⟨b, hrun⟩ := hrun
    rw [settings, onTree_files hrun]
    cases b with
    | true => exact onTree_loadConfig defaultConfig t
    | false => exact .inr ⟨{}, rfl, by decide⟩

end

/-- A split fails before it writes, or writes the host text, and then fails or writes the device
text. -/
theorem onTree_split (input : String) (config : Option String) (t : FileTree) :
    (∃ f, onTree (runCommand FileTree.access (.split input none none config)) t = (.error f, t)) ∨
    ∃ s text output m, onTree (settings FileTree.access config) t = (.ok s, t) ∧
      Config.validate s = .ok s ∧ t.read input = .ok text ∧
      splitDocument s.split (Document.ofText input text) = .ok output ∧
      t.write (markedSibling "cpu" input) output.host = .ok m ∧
      ((∃ f, onTree (runCommand FileTree.access (.split input none none config)) t =
          (.error f, m)) ∨
        ∃ o t', onTree (runCommand FileTree.access (.split input none none config)) t =
            (.ok o, t') ∧ m.write (input ++ s.split.deviceSuffix) output.device = .ok t') := by
  rw [runCommand, runSplit]
  rcases onTree_settings config t with ⟨f, hsettings⟩ | ⟨s, hsettings, hvalid⟩
  · exact .inl ⟨f, onTree_bind_error hsettings⟩
  rw [onTree_bind_ok hsettings]
  cases hread : t.read input with
  | error e => exact .inl ⟨_, onTree_bind_error (onTree_readFile_error hread)⟩
  | ok text =>
    rw [onTree_bind_ok (onTree_readFile_ok hread)]
    dsimp only
    cases hsplit : splitDocument s.split (Document.ofText input text) with
    | error e => exact .inl ⟨.split e, rfl⟩
    | ok output =>
      dsimp only
      cases hhost : t.write (markedSibling "cpu" input) output.host with
      | error e => exact .inl ⟨_, onTree_bind_error (onTree_writeFile_error hhost)⟩
      | ok m =>
        refine .inr ⟨s, text, output, m, hsettings, hvalid, rfl, hsplit, hhost, ?_⟩
        rw [Option.getD_none, onTree_bind_ok (onTree_writeFile_ok hhost)]
        cases hdevice : m.write (input ++ s.split.deviceSuffix) output.device with
        | error e => exact .inl ⟨_, onTree_bind_error (onTree_writeFile_error hdevice)⟩
        | ok t' => exact .inr ⟨_, t', onTree_bind_ok (onTree_writeFile_ok hdevice), rfl⟩

/-- What is written in the end, where nothing fails. -/
theorem onTree_split_ok {input text : String} {config : Option String}
    {output : Output} {m : FileTree}
    (hsettings : onTree (settings FileTree.access config) t = (.ok s, t))
    (hread : t.read input = .ok text)
    (hsplit : splitDocument s.split (Document.ofText input text) = .ok output)
    (hhost : t.write (markedSibling "cpu" input) output.host = .ok m)
    (hdevice : m.write (input ++ s.split.deviceSuffix) output.device = .ok t') :
    ∃ o, onTree (runCommand FileTree.access (.split input none none config)) t = (.ok o, t') := by
  rw [runCommand, runSplit, onTree_bind_ok hsettings, onTree_bind_ok (onTree_readFile_ok hread)]
  simp only [hsplit, Option.getD_none]
  rw [onTree_bind_ok (onTree_writeFile_ok hhost)]
  exact ⟨_, onTree_bind_ok (onTree_writeFile_ok hdevice)⟩

/-- No file can be written beside the null device. -/
theorem write_beside_nullDevice (text : String) :
    t.write (markedSibling "cpu" nullDevice) text ≠ .ok t' := by
  intro h
  obtain ⟨place, hleads, -, -⟩ := FileTree.look_write h
  have hparts : components (markedSibling "cpu" nullDevice) = ["", "dev"] ++ ["null.cpu"] := by
    decide
  rcases FileTree.leads_cases hleads with ⟨heq, -⟩ | hwalk
  · exact absurd heq (by decide)
  · rw [hparts, FileTree.origin, if_pos ((startsWith_slash_iff hparts).mpr rfl)] at hwalk
    obtain ⟨mid, hmid, hdir, -⟩ := FileTree.walk_concat_ok hwalk
    obtain ⟨-, -, hmid⟩ := FileTree.walk_cons_ok.mp hmid
    obtain ⟨-, -, hmid⟩ := FileTree.walk_cons_ok.mp hmid
    obtain rfl := Except.ok.inj hmid
    cases hdir

/-- One function is kept from the device. -/
def hostOnlyText : String := "int f() __attribute__((amp_restrict(\"cpu\")));\nint g();\n"

def deviceText : String := "\nint g();\n"

def noSuffix : Config.Settings := { split.deviceSuffix := "" }

def noSuffixText : String := "[rewrite]\ndevice_suffix = \"\"\n"

/-- The source and the settings, and what a split has written. -/
def noSuffixFiles (text : String) (written : List (List String × String)) : FileTree :=
  ⟨(["a.cpp"], text) :: (["duet.toml"], noSuffixText) :: written⟩

def noSuffixWritten (text : String) : FileTree :=
  noSuffixFiles text [(["a.cpu.cpp"], hostOnlyText)]

end Offload.CommandLine
