import Zelavis.Lib.Decoding
import Zelavis.Lib.Unicode

/-!
# The plan of an uninstall

`core/runtime/installation-plan.ts`, `core/runtime/installation-instance.ts`: the paths of an installation are
checked one by one, and the plan of an uninstall removes the directories that belong to the instance, with
everything below them. Where shared files are retained, what the other instances need stays.
-/

namespace Zelavis.Runtime.Uninstall

open Lib List

/-! ## Paths -/

def below (path name : Utf16) : Utf16 := path ++ utf16 "/" ++ name

def isLower (u : CodeUnit) : Bool := 0x61 ≤ u.val && u.val ≤ 0x7A

def isInstanceUnit (u : CodeUnit) : Bool := isLower u || (0x30 ≤ u.val && u.val ≤ 0x39) || u = 0x2D

/-- `^[a-z][a-z0-9-]{0,23}$` -/
def isInstance : Utf16 → Bool
  | [] => false
  | u :: rest => isLower u && rest.length ≤ 23 && rest.all isInstanceUnit

/-- Source: `installation-instance.ts` `assertInstallationInstance`. -/
def assertInstallationInstance (name : Utf16) : Except Utf16 Unit :=
  if name ≠ utf16 "default" ∧ isInstance name = false then
    .error (utf16 "Instance names must start with a lowercase letter and contain at most 24 lowercase letters, digits or hyphens.")
  else .ok ()

/-- Source: `installation-plan.ts` `UNSAFE_ROOTS`. -/
def UNSAFE_ROOTS : List Utf16 :=
  ["/", "/Applications", "/Library", "/System", "/Users", "/bin", "/dev", "/etc", "/home", "/lib", "/media",
    "/mnt", "/opt", "/private", "/proc", "/root", "/run", "/sbin", "/srv", "/sys", "/tmp", "/usr",
    "/var"].map utf16

/-- `\/\/|\/(?:\.|\.\.)(?:\/|$)`, anywhere. -/
def hasDotSegment : Utf16 → Bool
  | [] => false
  | u :: rest =>
    u = 0x2F && ((utf16 "/").isPrefixOf rest || rest = utf16 "." || rest = utf16 ".." ||
      (utf16 "./").isPrefixOf rest || (utf16 "../").isPrefixOf rest) || hasDotSegment rest

def baseName (path : Utf16) : Utf16 := (path.reverse.takeWhile (· ≠ 0x2F)).reverse

/-- Source: `installation-plan.ts` `assertInstallationPath`. -/
def assertInstallationPath (path label : Utf16) (name : Option Utf16) : Except Utf16 Unit :=
  if path.any fun u => u.val ≤ 0x1F || u = 0x7F then
    .error (utf16 "Refusing control characters in " ++ label ++ utf16 " path.")
  else if ¬(utf16 "/").isPrefixOf path then
    .error (utf16 "Refusing non-absolute " ++ label ++ utf16 " path: " ++ path)
  else if path ∈ UNSAFE_ROOTS then .error (utf16 "Refusing unsafe " ++ label ++ utf16 " path: " ++ path)
  else if hasDotSegment path ∨ (utf16 "/").isSuffixOf path then
    .error (utf16 "Refusing non-normalized " ++ label ++ utf16 " path: " ++ path)
  else match name with
    | some name =>
      if baseName path = name then .ok ()
      else .error (utf16 "Refusing " ++ label ++ utf16 " path whose name is not " ++ name ++ utf16 ": " ++ path)
    | none => .ok ()

/-- Source: `installation-plan.ts` `ZelavisInstallPaths`. -/
structure InstallPaths where
  prefixPath : Utf16
  instanceName : Option Utf16
  dataDirectory : Utf16
  configDirectory : Utf16
  commandPath : Utf16
  systemCommandPath : Utf16
  systemdDirectories : List Utf16

def InstallPaths.selected (paths : InstallPaths) : Utf16 := paths.instanceName.getD (utf16 "default")

def InstallPaths.named (paths : InstallPaths) : Bool := paths.selected ≠ utf16 "default"

/-- Source: `installation-plan.ts` `validateInstallationPaths`. -/
def validateInstallationPaths (paths : InstallPaths) : Except Utf16 Unit := do
  assertInstallationInstance paths.selected
  assertInstallationPath paths.prefixPath (utf16 "installation root") none
  assertInstallationPath paths.dataDirectory (utf16 "data directory") none
  assertInstallationPath paths.configDirectory (utf16 "configuration directory") none
  if paths.named ∧ paths.selected ≠ [] ∧
      ¬((utf16 "-" ++ paths.selected).isSuffixOf paths.dataDirectory ∧
        (utf16 "-" ++ paths.selected).isSuffixOf paths.configDirectory) then
    throw (utf16 "Named instance data/config directories must end in the instance suffix.")
  paths.systemdDirectories.forM fun path => assertInstallationPath path (utf16 "systemd directory") none
  assertInstallationPath paths.commandPath (utf16 "command") (utf16 "zelavis")
  assertInstallationPath paths.systemCommandPath (utf16 "system command") (utf16 "zelavis")

/-! ## The instance -/

/-- What of the scope of an instance an uninstall reads. Source: `installation-instance.ts`
`installationInstanceScope`. -/
structure InstanceScope where
  socket : Utf16
  directory : Utf16
  account : Utf16
  units : List Utf16

def InstanceScope.receipt (scope : InstanceScope) : Utf16 := below scope.directory (utf16 "installation.json")

def InstanceScope.runtime (scope : InstanceScope) : Utf16 := below scope.directory (utf16 "runtime.json")

/-- Source: `installation-instance.ts` `installationInstanceScope`. -/
def InstallPaths.scope (paths : InstallPaths) : InstanceScope :=
  let unit (base : String) : Utf16 :=
    if paths.named then utf16 base ++ utf16 "@" ++ paths.selected ++ utf16 ".service"
    else utf16 base ++ utf16 ".service"
  let suffix : Utf16 := if paths.named then utf16 "-" ++ paths.selected else []
  let updates : List Utf16 :=
    [utf16 "zelavis-update" ++ suffix ++ utf16 ".path", utf16 "zelavis-update" ++ suffix ++ utf16 ".service"]
  { socket := utf16 "zelavis" ++ suffix ++ utf16 ".socket"
    directory :=
      if paths.named then below (below paths.prefixPath (utf16 "instances")) paths.selected
      else paths.prefixPath
    account := utf16 "zelavis" ++ suffix
    units := [unit "zelavis", unit "zelavis-agent"] ++
      (if paths.named then updates else unit "zelavis-traefik" :: updates) ++ [unit "zelavis-host-agent"] }

/-! ## The plan -/

/-- Source: `installation-plan.ts` `ZelavisInstallAction`, those of an uninstall. -/
inductive Action where
  | systemctl (args : List Utf16)
  | remove (path : Utf16) (recursive : Bool)
  | removeLink (path prefixPath : Utf16)
  | reserveData (path : Utf16)
  | restorePackagePolicy (stateDirectory policy : Utf16)
  | purgePackages
  | releaseEdge (prefixPath instanceName dataDirectory : Utf16)
  | removeAccount (account dataDirectory : Utf16) (ownsUser ownsGroup : Bool)
  deriving DecidableEq

/-- Source: `installation-plan.ts` `ZelavisInstallStep`. -/
structure Step where
  id : Utf16
  description : Utf16
  action : Action
  deriving DecidableEq

/-- Source: `installation-plan.ts` `planZelavisUninstall`, its input. -/
structure UninstallInput where
  paths : InstallPaths
  hostCommands : Bool
  user : Bool
  ownsUser : Bool
  ownsGroup : Bool
  retainShared : Bool
  additionalCommandPaths : List Utf16

/-- The removals asked for, each path once: the first one decides. Source: `installation-plan.ts`
`planZelavisUninstall`, its `remove`. -/
def removeOnce (removalPaths : List Utf16) : List (Utf16 × Bool) → List (Utf16 × Bool)
  | [] => []
  | (path, recursive) :: rest =>
    if path ∈ removalPaths then removeOnce removalPaths rest
    else (path, recursive) :: removeOnce (path :: removalPaths) rest

def removal (e : Utf16 × Bool) : Step :=
  ⟨utf16 "remove:" ++ e.1, utf16 "Remove " ++ e.1, .remove e.1 e.2⟩

def InstallPaths.systemd (paths : InstallPaths) : Utf16 := paths.systemdDirectories.headD (utf16 "undefined")

def InstallPaths.allUnits (paths : InstallPaths) : List Utf16 := paths.scope.units ++ [paths.scope.socket]

def InstallPaths.unitFiles (paths : InstallPaths) (unit : Utf16) : List Utf16 :=
  paths.systemdDirectories.map (below · unit) ++
    [below (below paths.systemd (utf16 "multi-user.target.wants")) unit,
      below (below paths.systemd (utf16 "sockets.target.wants")) unit]

def InstallPaths.dropIns (paths : InstallPaths) (unit : Utf16) : Utf16 :=
  below paths.systemd (unit ++ utf16 ".d")

def InstallPaths.unitRemovals (paths : InstallPaths) : List (Utf16 × Bool) :=
  paths.allUnits.flatMap fun unit =>
    (paths.unitFiles unit).map (·, false) ++ [(paths.dropIns unit, true)]

/-- Source: `installation-plan.ts` `planZelavisUninstall`, the unit templates. -/
def InstallPaths.templateRemovals (paths : InstallPaths) : List (Utf16 × Bool) :=
  (["zelavis@.service", "zelavis-agent@.service", "zelavis-host-agent@.service", "zelavis.service",
    "zelavis.socket", "zelavis-agent.service", "zelavis-host-agent.service", "zelavis-traefik.service",
    "zelavis-update.service", "zelavis-update.path"].map utf16).flatMap fun template =>
      paths.systemdDirectories.map fun directory => (below directory template, false)

def UninstallInput.removals (input : UninstallInput) : List (Utf16 × Bool) :=
  (if input.user then []
    else input.paths.unitRemovals ++ if input.retainShared then [] else input.paths.templateRemovals) ++
    [(input.paths.configDirectory, true)]

def InstallPaths.ownRemovals (paths : InstallPaths) : List (Utf16 × Bool) :=
  if paths.named then [(paths.scope.directory, true)]
  else [(paths.scope.receipt, false), (paths.scope.runtime, false),
    (below paths.scope.directory (utf16 "host-agent"), true)]

def UninstallInput.commandPaths (input : UninstallInput) : List Utf16 :=
  (if input.retainShared then []
    else if input.user then [input.paths.commandPath]
    else input.paths.commandPath :: input.paths.systemCommandPath :: input.additionalCommandPaths).eraseDups

def systemctl (id : String) (args : List Utf16) : Step :=
  ⟨utf16 id, utf16 "systemctl " ++ (utf16 " ").intercalate args, .systemctl args⟩

/-- Source: `installation-plan.ts` `planZelavisUninstall`, its steps. -/
def UninstallInput.steps (input : UninstallInput) : List Step :=
  let paths := input.paths
  let scope := paths.scope
  (if input.hostCommands then
    [systemctl "stop" (utf16 "stop" :: scope.socket :: scope.units),
      systemctl "disable" (utf16 "disable" :: scope.socket :: scope.units),
      ⟨utf16 "data-reservation", utf16 "Reserve Platform data after stopping the owned units",
        .reserveData paths.dataDirectory⟩]
    else [⟨utf16 "data-reservation", utf16 "Refuse removal while a Platform owns these data",
      .reserveData paths.dataDirectory⟩]) ++
  (if ¬input.user ∧ ¬paths.named then
    [⟨utf16 "edge-release", utf16 "Release " ++ paths.prefixPath ++ utf16 "/edge-owner.json and " ++
        paths.prefixPath ++ utf16 "/.edge-owner.lock only when owned by this instance",
      .releaseEdge paths.prefixPath paths.selected paths.dataDirectory⟩] else []) ++
  (if input.hostCommands ∧ ¬input.retainShared then
    [⟨utf16 "package-policy", utf16 "Restore only the recorded host package policy; preserve operator changes",
        .restorePackagePolicy (below paths.prefixPath (utf16 "host-packages")) (utf16 "/usr/sbin/policy-rc.d")⟩,
      ⟨utf16 "packages", utf16 "Purge zelavis when installed through dpkg", .purgePackages⟩] else []) ++
  (input.commandPaths.map fun path =>
    ⟨utf16 "command:" ++ path, utf16 "Remove only a Zelavis-owned command link at " ++ path,
      .removeLink path paths.prefixPath⟩) ++
  (removeOnce [] input.removals).map removal ++
  (if input.hostCommands then
    [⟨utf16 "account", utf16 "Remove only recorded installer-created accounts with safe current properties",
        .removeAccount scope.account paths.dataDirectory input.ownsUser input.ownsGroup⟩,
      systemctl "reload" [utf16 "daemon-reload"],
      systemctl "reset" (utf16 "reset-failed" :: scope.units)] else []) ++
  [⟨utf16 "remove:" ++ paths.dataDirectory, utf16 "Remove " ++ paths.dataDirectory ++
      utf16 ", including runtime custody, control socket, engine journals/ownership locks, Agent state and every Project",
    .remove paths.dataDirectory true⟩] ++
  if input.retainShared then
    (removeOnce (input.removals.map Prod.fst) paths.ownRemovals).map removal
  else [⟨utf16 "remove:" ++ paths.prefixPath,
    utf16 "Remove " ++ paths.prefixPath ++ utf16 ", including installer lock, receipt and all releases",
    .remove paths.prefixPath true⟩]

/-- Source: `installation-plan.ts` `planZelavisUninstall`. -/
def planZelavisUninstall (input : UninstallInput) : Except Utf16 (List Step) := do
  validateInstallationPaths input.paths
  if input.user && input.hostCommands then
    throw (utf16 "User uninstall must not execute system maintenance commands.")
  input.commandPaths.forM fun path => assertInstallationPath path (utf16 "command") (utf16 "zelavis")
  return input.steps

/-! ## What has to stay -/

def Covers (root path : Utf16) : Prop := path = root ∨ root ++ utf16 "/" <+: path

/-- What the other instances need: the shared files, and the directory of every other instance that there may
be. -/
def Survives (paths : InstallPaths) (path : Utf16) : Prop :=
  path = paths.prefixPath ∨ path = below paths.prefixPath (utf16 "current") ∨
    path = below paths.prefixPath (utf16 "releases") ∨
    ∃ other, isInstance other = true ∧ other ≠ utf16 "default" ∧ other ≠ paths.selected ∧
      path = below (below paths.prefixPath (utf16 "instances")) other

def Confined (paths : InstallPaths) (steps : List Step) : Prop :=
  ∀ root, .remove root true ∈ steps.map Step.action → ∀ path, Survives paths path → ¬Covers root path

/-- The directory is neither the installation root nor above it, nor one of those in it that others need. -/
structure Clear (paths : InstallPaths) (root : Utf16) : Prop where
  above : ¬Covers root paths.prefixPath
  current : root ≠ below paths.prefixPath (utf16 "current")
  releases : root ≠ below paths.prefixPath (utf16 "releases")
  instances : root ≠ below paths.prefixPath (utf16 "instances")
  others : ∀ other, isInstance other = true → other ≠ utf16 "default" → other ≠ paths.selected →
    root ≠ below (below paths.prefixPath (utf16 "instances")) other

variable {root path name : Utf16} {paths : InstallPaths} {input : UninstallInput} {steps : List Step}

lemma covers_below (root path name : Utf16) (hname : (0x2F : CodeUnit) ∉ name) :
    Covers root (below path name) ↔ Covers root path ∨ root = below path name := by
  unfold Covers below
  constructor
  · rintro (h | h)
    · exact .inr h.symm
    · rcases prefix_or_prefix_of_prefix h (prefix_append (path ++ utf16 "/") name) with h' | h'
      · rcases prefix_concat_iff.1 h' with heq | h'
        · exact .inl (.inl (append_cancel_right heq).symm)
        · exact .inl (.inr h')
      · rcases prefix_concat_iff.1 h' with heq | ⟨k, rfl⟩
        · exact .inl (.inl (append_cancel_right heq))
        · -- the name would hold the slash that ends the root
          rw [append_assoc (path ++ utf16 "/"), prefix_append_right_inj] at h
          exact absurd (h.subset (by simp [utf16])) hname
  · rintro ((rfl | h) | rfl)
    · exact .inr (prefix_append _ _)
    · exact .inr (h.trans ((prefix_append _ _).trans (prefix_append _ _)))
    · exact .inl rfl

lemma slash_notMem (h : isInstance name = true) : (0x2F : CodeUnit) ∉ name := by
  cases name with
  | nil => simp
  | cons u rest =>
    simp only [isInstance, Bool.and_eq_true, List.all_eq_true] at h
    rintro (_ | ⟨_, hmem⟩)
    · exact absurd h.1.1 (by decide)
    · exact absurd (h.2 _ hmem) (by decide)

lemma exists_other (paths : InstallPaths) :
    ∃ other, isInstance other = true ∧ other ≠ utf16 "default" ∧ other ≠ paths.selected := by
  by_cases h : paths.selected = utf16 "a"
  · exact ⟨utf16 "b", by decide, by decide, by rw [h]; decide⟩
  · exact ⟨utf16 "a", by decide, by decide, Ne.symm h⟩

lemma clear_iff : Clear paths root ↔ ∀ path, Survives paths path → ¬Covers root path := by
  have hcurrent := covers_below root paths.prefixPath (utf16 "current") (by decide)
  have hreleases := covers_below root paths.prefixPath (utf16 "releases") (by decide)
  have hinstances := covers_below root paths.prefixPath (utf16 "instances") (by decide)
  constructor
  · rintro h path (rfl | rfl | rfl | ⟨other, hvalid, hdefault, hother, rfl⟩)
    · exact h.above
    · exact fun hcovers => (hcurrent.1 hcovers).elim h.above h.current
    · exact fun hcovers => (hreleases.1 hcovers).elim h.above h.releases
    · exact fun hcovers => ((covers_below _ _ _ (slash_notMem hvalid)).1 hcovers).elim
        (fun hdir => (hinstances.1 hdir).elim h.above h.instances) (h.others other hvalid hdefault hother)
  · intro h
    refine ⟨h _ (.inl rfl), ?_, ?_, ?_, ?_⟩
    · exact fun heq => h _ (.inr (.inl rfl)) (.inl heq.symm)
    · exact fun heq => h _ (.inr (.inr (.inl rfl))) (.inl heq.symm)
    · rintro rfl
      obtain ⟨other, hvalid, hdefault, hother⟩ := exists_other paths
      exact h _ (.inr (.inr (.inr ⟨other, hvalid, hdefault, hother, rfl⟩)))
        ((covers_below _ _ _ (slash_notMem hvalid)).2 (.inl (.inl rfl)))
    · exact fun other hvalid hdefault hother heq =>
        h _ (.inr (.inr (.inr ⟨other, hvalid, hdefault, hother, rfl⟩))) (.inl heq.symm)

/-! ## What a plan removes -/

variable {l seen : List Utf16} {requests : List (Utf16 × Bool)} {e : Utf16 × Bool}

lemma mem_of_mem_removeOnce (h : e ∈ removeOnce seen requests) : e ∈ requests ∧ e.1 ∉ seen := by
  induction requests generalizing seen with
  | nil => simp [removeOnce] at h
  | cons r rest ih => grind [removeOnce]

lemma mem_removeOnce (h : (path, true) ∈ requests) (halone : (path, false) ∉ requests) (hseen : path ∉ seen) :
    (path, true) ∈ removeOnce seen requests := by
  induction requests generalizing seen with
  | nil => simp at h
  | cons r rest ih => obtain ⟨p, recursive⟩ := r; cases recursive <;> grind [removeOnce]

lemma mem_of_mem_removeOnce_concat {r : Utf16 × Bool} (h : e ∈ removeOnce seen (requests ++ [r])) :
    e ∈ requests ∨ e = r ∧ r.1 ∉ requests.map Prod.fst := by
  induction requests generalizing seen with
  | nil => exact .inr ⟨by simpa using (mem_of_mem_removeOnce h).1, by simp⟩
  | cons q rest ih =>
    have hseen := (mem_of_mem_removeOnce h).2
    rw [cons_append, removeOnce] at h
    split_ifs at h
    · grind
    · rcases mem_cons.1 h with heq | h
      · exact .inl (by simp [heq])
      · have hnew := (mem_of_mem_removeOnce h).2
        grind

lemma getLast?_unit (h : name ∈ paths.allUnits) : ∃ u ∈ name.getLast?, u ≠ 0x64 := by
  have hservice : (utf16 ".service").getLast? = some 0x65 := by decide
  have hpath : (utf16 ".path").getLast? = some 0x68 := by decide
  have hsocket : (utf16 ".socket").getLast? = some 0x74 := by decide
  simp only [InstallPaths.allUnits, InstallPaths.scope] at h
  split_ifs at h <;> simp at h <;> rcases h with h | h | h | h | h | h | h <;> simp [*]

lemma mem_unitRemovals {recursive : Bool} :
    (path, recursive) ∈ paths.unitRemovals ↔ ∃ unit ∈ paths.allUnits,
      if recursive then path = paths.dropIns unit else path ∈ paths.unitFiles unit := by
  cases recursive <;> simp [InstallPaths.unitRemovals]

lemma dropIns_notMem {unit unit' : Utf16} (h : unit' ∈ paths.allUnits) :
    paths.dropIns unit ∉ paths.unitFiles unit' := by
  obtain ⟨u, hu, hne⟩ := getLast?_unit h
  have hd : (utf16 ".d").getLast? = some 0x64 := by decide
  have hlast : (paths.dropIns unit).getLast? = some 0x64 := by simp [InstallPaths.dropIns, below, hd]
  intro hmem
  have hfile : (paths.dropIns unit).getLast? = some u := by
    simp only [InstallPaths.unitFiles, mem_append, List.mem_map, mem_cons, not_mem_nil,
      or_false] at hmem
    rcases hmem with ⟨d, -, h⟩ | h | h <;> simp [← h, h, below, Option.mem_def.1 hu]
  exact hne (Option.some.inj (hfile.symm.trans hlast))

lemma clear_of_own (h : (root, true) ∈ paths.ownRemovals) : Clear paths root := by
  have hnot : paths.prefixPath.length < root.length → ¬Covers root paths.prefixPath := by
    rintro hlt (heq | hbelow)
    · exact absurd (congrArg List.length heq) hlt.ne
    · have := hbelow.length_le
      simp at this
      omega
  simp only [InstallPaths.ownRemovals, InstallPaths.scope] at h
  split_ifs at h with hnamed <;> simp at h <;> subst h <;>
    refine ⟨hnot (by simp [below, utf16]; try omega), ?_, ?_, ?_, fun other _ _ hother => ?_⟩
  all_goals simp [below, utf16, Ne.symm, *]

lemma mem_removal : .remove root true ∈ (requests.map removal).map Step.action ↔ (root, true) ∈ requests := by
  simp [removal]

lemma removes_iff (hretain : input.retainShared = true) : .remove root true ∈ input.steps.map Step.action ↔
      root = input.paths.dataDirectory ∨ (root, true) ∈ removeOnce [] input.removals ∨
        (root, true) ∈ removeOnce (input.removals.map Prod.fst) input.paths.ownRemovals := by
  have hlinks : input.commandPaths = [] := by simp [UninstallInput.commandPaths, hretain]
  simp only [UninstallInput.steps, hlinks, hretain, map_append, mem_append, mem_removal, if_true]
  split_ifs <;> simp [systemctl, or_assoc, or_left_comm]

/-- The directories that an uninstall removes are apart from those that have to stay: its data, its
configuration unless that is one of the unit files, and what is dropped in for its units. -/
structure Apart (input : UninstallInput) : Prop where
  data : Clear input.paths input.paths.dataDirectory
  configuration : (input.user = false → ∀ unit ∈ input.paths.allUnits,
    input.paths.configDirectory ∉ input.paths.unitFiles unit) → Clear input.paths input.paths.configDirectory
  dropIns : input.user = false → ∀ unit ∈ input.paths.allUnits, Clear input.paths (input.paths.dropIns unit)

/-- Where shared files are retained: no removal of the plan covers what the other instances need, if and only
if the directories it removes are apart from these. -/
theorem confined_iff (input : UninstallInput) (steps : List Step) (hplan : planZelavisUninstall input = .ok steps)
    (hretain : input.retainShared = true) : Confined input.paths steps ↔ Apart input := by
  have hsteps : steps = input.steps := by
    unfold planZelavisUninstall at hplan
    obtain ⟨-, -, hplan⟩ := bind_eq_ok_iff.1 hplan
    split_ifs at hplan
    · cases hplan
    · obtain ⟨-, -, hplan⟩ := bind_eq_ok_iff.1 hplan
      exact (Except.ok.inj hplan).symm
  subst hsteps
  have hremovals : input.removals = (if input.user then [] else input.paths.unitRemovals) ++
      [(input.paths.configDirectory, true)] := by simp [UninstallInput.removals, hretain]
  have hfiles : ∀ {path}, (path, false) ∈ input.removals ↔
      input.user = false ∧ ∃ unit ∈ input.paths.allUnits, path ∈ input.paths.unitFiles unit := by
    intro path
    cases huser : input.user <;> simp [hremovals, huser, mem_unitRemovals]
  simp only [Confined, ← clear_iff, removes_iff hretain]
  constructor
  · intro h
    refine ⟨h _ (Or.inl rfl), fun halone => h _ (Or.inr (Or.inl (mem_removeOnce ?_ ?_ ?_))),
      fun huser unit hunit => h _ (Or.inr (Or.inl (mem_removeOnce ?_ ?_ ?_)))⟩
    · simp [hremovals]
    · intro hfile
      obtain ⟨huser, unit, hunit, hfile⟩ := hfiles.1 hfile
      exact halone huser unit hunit hfile
    · simp
    · rw [hremovals, huser]
      exact List.mem_append_left _ (mem_unitRemovals.2 ⟨unit, hunit, rfl⟩)
    · intro hfile
      obtain ⟨-, unit', hunit', hfile⟩ := hfiles.1 hfile
      exact dropIns_notMem hunit' hfile
    · simp
  · rintro h root (rfl | hmem | hmem)
    · exact h.data
    · rw [hremovals] at hmem
      rcases mem_of_mem_removeOnce_concat hmem with hunits | ⟨heq, halone⟩
      · cases huser : input.user with
        | true => simp [huser] at hunits
        | false =>
          rw [huser] at hunits
          obtain ⟨unit, hunit, rfl⟩ := mem_unitRemovals.1 hunits
          exact h.dropIns huser unit hunit
      · obtain rfl : root = input.paths.configDirectory := congrArg Prod.fst heq
        refine h.configuration fun huser unit hunit hfile => halone ?_
        have hin : (input.paths.configDirectory, false) ∈ input.paths.unitRemovals :=
          mem_unitRemovals.2 ⟨unit, hunit, hfile⟩
        rw [huser]
        exact List.mem_map.2 ⟨_, hin, rfl⟩
    · exact clear_of_own (mem_of_mem_removeOnce hmem).1

/-- An installation below its own data: the data are removed, and the installation with them. -/
def sharedHost : UninstallInput where
  paths :=
    { prefixPath := utf16 "/srv/zelavis/app"
      instanceName := none
      dataDirectory := utf16 "/srv/zelavis"
      configDirectory := utf16 "/etc/zelavis"
      commandPath := utf16 "/usr/local/bin/zelavis"
      systemCommandPath := utf16 "/usr/bin/zelavis"
      systemdDirectories := [utf16 "/etc/systemd/system"] }
  hostCommands := true
  user := false
  ownsUser := true
  ownsGroup := true
  retainShared := true
  additionalCommandPaths := []

theorem not_confined : ¬∀ input steps, planZelavisUninstall input = .ok steps → input.retainShared = true →
    Confined input.paths steps := by
  intro h
  have hplan : planZelavisUninstall sharedHost = .ok sharedHost.steps := by decide +kernel
  refine h _ _ hplan rfl (utf16 "/srv/zelavis") ((removes_iff rfl).2 (Or.inl rfl)) _ (Or.inl rfl) (Or.inr ?_)
  decide +kernel

theorem confined_iff_sharedHost : Confined sharedHost.paths sharedHost.steps ↔ Apart sharedHost :=
  confined_iff sharedHost sharedHost.steps (by decide +kernel) rfl

end Zelavis.Runtime.Uninstall
