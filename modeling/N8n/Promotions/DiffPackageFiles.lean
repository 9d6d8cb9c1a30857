import N8n.Common.JsString
import N8n.Foundations.OrderedMap
import Mathlib

/-!
# The diff of a promotion

A promotion compares the entity files of a branch with those that it would write. A file is
identified by its place in the layout of a package: its type, the identifier or slug of its entity,
its project and its name. Each desired file is paired with a base file of the same identity, with
the one at its own path if there is one, and otherwise with one that no desired file replaces.

## Main definitions

* `parsePackageFiles`: the entity files of a listing, with their identities
* `diffPackageFiles`: the changes from the base files to the desired ones
* `IsExact`: the changes lead from the base to the desired files and touch nothing else

## Main results

* `diffPackageFiles_exact`: the changes are exact for listings with distinct paths
-/

namespace N8n.Promotions

open OrderedMap

local instance lawfulPath : LawfulBEq JsString := inferInstance

/-! ## Package files -/

inductive EntityType
  | project | folder | workflow | credential | dataTable | variable | tag
deriving DecidableEq

/-- An entry of `BASE_BRANCH_ENTITIES`. -/
structure Entity where
  directory : JsString
  fileName : JsString
  type : EntityType
  includeRoot : Bool

def projects : Entity := ⟨js "projects".toList, js "project.json".toList, .project, true⟩

def folders : Entity := ⟨js "folders".toList, js "folder.json".toList, .folder, false⟩

/-- `BASE_BRANCH_ENTITIES` -/
def baseBranchEntities : List Entity :=
  [projects, folders, ⟨js "workflows".toList, js "workflow.json".toList, .workflow, false⟩,
    ⟨js "credentials".toList, js "credential.json".toList, .credential, true⟩,
    ⟨js "data-tables".toList, js "data-table.json".toList, .dataTable, true⟩,
    ⟨js "variables".toList, js "variable.json".toList, .variable, true⟩,
    ⟨js "tags".toList, js "tag.json".toList, .tag, true⟩]

/-- `BASE_BRANCH_DIRECTORIES` -/
def baseBranchDirectories : List JsString :=
  (baseBranchEntities.filter (·.includeRoot)).map (·.directory)

structure PackageFile where
  entityId : JsString
  slug : JsString
  projectId : Option JsString
  fileName : JsString
  path : JsString
  blobSha : JsString
  type : EntityType
deriving DecidableEq

abbrev paths (files : List PackageFile) : List JsString := files.map PackageFile.path

/-- A file of a listing, by its path. -/
structure ListedFile where
  path : JsString
  blobSha : JsString

structure ParseOptions where
  exportRoot : JsString
  projectId : JsString

/-- `lastIndexOf('-')`, `none` for `-1`. -/
def lastHyphen (segment : JsString) : Option ℕ :=
  (segment.reverse.idxOf? (ascii '-')).map fun i => segment.length - 1 - i

def entityIdOfSegment (segment : JsString) : JsString :=
  segment.drop ((lastHyphen segment).elim 0 (· + 1))

/-- The slug; a segment with no hyphen loses its last character. -/
def slugOfSegment (segment : JsString) : JsString :=
  (lastHyphen segment).elim segment.dropLast segment.take

/-- One round of the loop of `parsePackageFiles`. -/
def parsePackageFile (options : ParseOptions) (file : ListedFile) : Option PackageFile :=
  let rootPrefix := options.exportRoot ++ [ascii '/']
  let segments := (file.path.drop rootPrefix.length).splitOn (ascii '/')
  let segment (i : ℕ) : JsString := segments.getD i []
  let inProject := segment 0 = projects.directory
  let fileName := segment (segments.length - 1)
  let entitySegment := segment (segments.length - 2)
  if ¬ rootPrefix <+: file.path then none
  else if segments.length < 3 then none
  else if inProject ∧ entityIdOfSegment (segment 1) ≠ options.projectId then none
  else if ¬ inProject ∧ segment 0 ∉ baseBranchDirectories then none
  else
    let entity :=
      if inProject ∧ segment 2 = folders.directory ∧ fileName = folders.fileName then some folders
      else baseBranchEntities.find? (·.directory = segment (segments.length - 3))
    (entity.filter fun entity => fileName = entity.fileName).map fun entity =>
      { entityId := entityIdOfSegment entitySegment
        slug := slugOfSegment entitySegment
        projectId := if inProject then some options.projectId else none
        fileName := entity.fileName
        path := file.path
        blobSha := file.blobSha
        type := entity.type }

def parsePackageFiles (options : ParseOptions) (packageFiles : List ListedFile) :
    List PackageFile :=
  packageFiles.filterMap (parsePackageFile options)

/-- What is parsed from a path depends on the path, except for the hash. -/
theorem parsePackageFile_eq (options : ParseOptions) (path blobSha blobSha' : JsString) :
    parsePackageFile options ⟨path, blobSha⟩ =
      (parsePackageFile options ⟨path, blobSha'⟩).map ({ · with blobSha }) := by
  unfold parsePackageFile
  dsimp only
  split_ifs <;> first | rfl | rw [Option.map_map]; rfl

/-! ## The diff -/

/-- The match key of a file; the source writes the four parts as one JSON text. -/
structure MatchKey where
  type : EntityType
  identity : JsString
  projectId : Option JsString
  fileName : JsString
deriving DecidableEq

def fileMatchKey (file : PackageFile) : MatchKey where
  type := file.type
  identity := if file.type = .variable then file.slug else file.entityId
  projectId := file.projectId
  fileName := file.fileName

inductive PackageFileChange
  | added (desired : PackageFile)
  | deleted (base : PackageFile)
  | modified (base desired : PackageFile)
  | renamed (base desired : PackageFile)
  | renamedAndModified (base desired : PackageFile)
deriving DecidableEq

def PackageFileChange.bases : PackageFileChange → List PackageFile
  | .added _ => []
  | .deleted b | .modified b _ | .renamed b _ | .renamedAndModified b _ => [b]

def PackageFileChange.desireds : PackageFileChange → List PackageFile
  | .deleted _ => []
  | .added d | .modified _ d | .renamed _ d | .renamedAndModified _ d => [d]

open PackageFileChange

abbrev Groups := OrderedMap MatchKey (List PackageFile)

/-- The base files by match key. -/
def groupFiles (base : List PackageFile) : Groups :=
  base.foldl (fun remaining file => remaining.set (fileMatchKey file)
    ((remaining.get? (fileMatchKey file)).getD [] ++ [file])) .empty

/-- The file of a group that a desired file is paired with. -/
def findMatch (desiredPaths : List JsString) (group : List PackageFile) (file : PackageFile) :
    Option ℕ :=
  (group.findIdx? (·.path = file.path)).or (group.findIdx? (·.path ∉ desiredPaths))

/-- The change that a pair amounts to, if any. -/
def changeOf (previous file : PackageFile) : Option PackageFileChange :=
  if previous.path ≠ file.path then
    some (if previous.blobSha ≠ file.blobSha then .renamedAndModified previous file
      else .renamed previous file)
  else if previous.blobSha ≠ file.blobSha then some (.modified previous file)
  else none

/-- One round of the loop over the desired files. -/
def pairFile (desiredPaths : List JsString) (s : Groups × List PackageFileChange)
    (file : PackageFile) : Groups × List PackageFileChange :=
  let group := (s.1.get? (fileMatchKey file)).getD []
  match findMatch desiredPaths group file with
  | none => (s.1, s.2 ++ [.added file])
  | some index =>
    match group[index]? with
    | none => (s.1, s.2 ++ [.added file])
    | some previous => (s.1.set (fileMatchKey file) (group.eraseIdx index),
        s.2 ++ (changeOf previous file).toList)

def diffPackageFiles (base desired : List PackageFile) : List PackageFileChange :=
  let (remaining, changes) :=
    desired.foldl (pairFile (paths desired)) (groupFiles base, [])
  changes ++ remaining.values.flatten.map deleted

/-- The base files without those that changes remove, with those that they add. -/
def applyChanges (changes : List PackageFileChange) (base : List PackageFile) :
    List PackageFile :=
  base.diff (changes.flatMap bases) ++
    changes.flatMap desireds

section Groups

variable {remaining : Groups} {k : MatchKey} {b d : PackageFile}

/-- The files of a match key. -/
def Groups.group (remaining : Groups) (k : MatchKey) : List PackageFile :=
  (remaining.get? k).getD []

/-- The files of all groups. -/
def Groups.held (remaining : Groups) : Multiset PackageFile :=
  remaining.total fun _ (group : List PackageFile) => (group : Multiset PackageFile)

/-- Every file is in the group of its match key. -/
def Groups.Sorted (remaining : Groups) : Prop :=
  ∀ k, ∀ b ∈ remaining.group k, fileMatchKey b = k

theorem Groups.group_set (group : List PackageFile) (k' : MatchKey) :
    Groups.group (remaining.set k group) k' = if k' = k then group else remaining.group k' := by
  simp only [Groups.group, get?_set]
  split_ifs <;> rfl

theorem Groups.held_set (remaining : Groups) (k : MatchKey) (group : List PackageFile) :
    Groups.held (remaining.set k group) + remaining.group k = remaining.held + group := by
  rw [held, held, ← @total_set _ _ _ remaining k, Groups.group]
  cases remaining.get? k <;> rfl

theorem Groups.held_eq (remaining : Groups) :
    remaining.held = (remaining.values.flatten : Multiset PackageFile) := by
  rw [held, total, values]
  induction remaining.entries with
  | nil => rfl
  | cons e es ih => simp [ih]

theorem Groups.Sorted.mem_held (h : remaining.Sorted) :
    b ∈ remaining.held ↔ b ∈ remaining.group (fileMatchKey b) := by
  rw [held_eq, Multiset.mem_coe, List.mem_flatten]
  constructor
  · rintro ⟨group, hgroup, hb⟩
    obtain ⟨k, hk⟩ := mem_values.1 hgroup
    have hbk : b ∈ remaining.group k := by simpa [Groups.group, hk] using hb
    rwa [h k b hbk]
  · intro hb
    cases hg : remaining.get? (fileMatchKey b) with
    | none => simp [Groups.group, hg] at hb
    | some group => exact ⟨group, mem_values.2 ⟨_, hg⟩, by simpa [Groups.group, hg] using hb⟩

theorem Groups.Sorted.set (h : remaining.Sorted) {group : List PackageFile}
    (hgroup : ∀ b ∈ group, fileMatchKey b = k) : Groups.Sorted (remaining.set k group) := by
  intro k' b hb
  rw [Groups.group_set] at hb
  split_ifs at hb with hk
  · exact (hgroup b hb).trans hk.symm
  · exact h k' b hb

theorem groupFiles_sorted (base : List PackageFile) :
    (groupFiles base).Sorted ∧ (groupFiles base).held = base := by
  induction base using List.reverseRecOn with
  | nil => exact ⟨fun k b hb => (List.not_mem_nil hb).elim, rfl⟩
  | append_singleton base file ih =>
    have hfold : groupFiles (base ++ [file]) = (groupFiles base).set (fileMatchKey file)
        ((groupFiles base).group (fileMatchKey file) ++ [file]) := List.foldl_concat ..
    rw [hfold]
    refine ⟨ih.1.set fun b hb => ?_, ?_⟩
    · obtain hb | hb := List.mem_append.1 hb
      · exact ih.1 _ b hb
      · rw [List.mem_singleton.1 hb]
    · have hheld := (groupFiles base).held_set (fileMatchKey file)
        ((groupFiles base).group (fileMatchKey file) ++ [file])
      rw [← Multiset.coe_add, ← add_assoc, add_right_comm, ih.2] at hheld
      rw [← Multiset.coe_add]
      exact add_right_cancel hheld

/-- A desired file is added where every file of its group is at the path of another desired file,
and is paired otherwise. -/
theorem pairFile_cases (desiredPaths : List JsString) (remaining : Groups)
    (changes : List PackageFileChange) (d : PackageFile) :
    (pairFile desiredPaths (remaining, changes) d = (remaining, changes ++ [.added d]) ∧
      ∀ b ∈ remaining.group (fileMatchKey d), b.path ≠ d.path ∧ b.path ∈ desiredPaths) ∨
    ∃ previous rest, (remaining.group (fileMatchKey d)).Perm (previous :: rest) ∧
      pairFile desiredPaths (remaining, changes) d =
        (remaining.set (fileMatchKey d) rest, changes ++ (changeOf previous d).toList) ∧
      (previous.path = d.path ∨ previous.path ∉ desiredPaths ∧
        ∀ b ∈ remaining.group (fileMatchKey d), b.path ≠ d.path) := by
  simp only [pairFile, findMatch, Groups.group]
  generalize (remaining.get? (fileMatchKey d)).getD [] = group
  -- pairing with the file at a position takes that file out of the group
  have htake : ∀ index (hi : index < group.length),
      group.Perm (group[index] :: group.eraseIdx index) :=
    fun index hi => (List.getElem_cons_eraseIdx_perm hi).symm
  cases hsame : group.findIdx? (·.path = d.path) with
  | some index =>
    obtain ⟨hi, hpath, -⟩ := List.findIdx?_eq_some_iff_getElem.1 hsame
    refine .inr ⟨group[index], _, htake index hi, ?_, .inl (by simpa using hpath)⟩
    simp [hi]
  | none =>
    have hother : ∀ b ∈ group, b.path ≠ d.path := by simpa using List.findIdx?_eq_none_iff.1 hsame
    cases hfree : group.findIdx? (·.path ∉ desiredPaths) with
    | some index =>
      obtain ⟨hi, hpath, -⟩ := List.findIdx?_eq_some_iff_getElem.1 hfree
      refine .inr ⟨group[index], _, htake index hi, ?_, .inr ⟨by simpa using hpath, hother⟩⟩
      simp [hi]
    | none =>
      have htaken : ∀ b ∈ group, b.path ∈ desiredPaths := by
        simpa using List.findIdx?_eq_none_iff.1 hfree
      exact .inl ⟨rfl, fun b hb => ⟨hother b hb, htaken b hb⟩⟩

end Groups

/-! ## The pairing -/

/-- A change that modifies a file in its place, or removes and adds files whose paths the other
side does not have. -/
def Local (desiredPaths basePaths : List JsString) (c : PackageFileChange) : Prop :=
  (∃ b d, c = .modified b d ∧ b.path = d.path ∧ b.blobSha ≠ d.blobSha) ∨
    (∀ b ∈ c.bases, b.path ∉ desiredPaths) ∧ ∀ d ∈ c.desireds, d.path ∉ basePaths

/-- Where the loop stands once the files `processed` are paired. -/
structure Paired (base desired processed : List PackageFile) (remaining : Groups)
    (changes : List PackageFileChange) : Prop where
  sorted : remaining.Sorted
  account : ∃ unchanged : Multiset PackageFile,
    remaining.held + unchanged + ↑(changes.flatMap bases) = ↑base ∧
    unchanged + ↑(changes.flatMap desireds) = ↑processed
  isLocal : ∀ c ∈ changes, Local (paths desired) (paths base) c
  apart : ∀ d, .added d ∈ changes → ∀ b ∈ remaining.group (fileMatchKey d),
    b.path ∈ paths desired
  kept : ∀ b, .deleted b ∉ changes

section Pairing

variable {base desired processed : List PackageFile} {remaining : Groups}
  {changes : List PackageFileChange} {b d : PackageFile}

/-- What the listings of one package have in common: distinct paths, and files that differ in
their hash at most where the path is the same. -/
structure Listings (base desired : List PackageFile) : Prop where
  base_paths : (paths base).Nodup
  desired_paths : (paths desired).Nodup
  agree : ∀ b ∈ base, ∀ d ∈ desired, b.path = d.path → b = { d with blobSha := b.blobSha }

theorem Listings.fileMatchKey_eq (hl : Listings base desired) (hb : b ∈ base) (hd : d ∈ desired)
    (h : b.path = d.path) : fileMatchKey b = fileMatchKey d := by
  rw [hl.agree b hb d hd h]
  rfl

/-- The base file at the path of a desired file is in no group once that file is processed, and
in its group before. -/
theorem Paired.held_iff (h : Paired base desired processed remaining changes)
    (hl : Listings base desired) (hsub : processed ⊆ desired) (hb : b ∈ base) (hd : d ∈ desired)
    (hpath : b.path = d.path) : b ∈ remaining.held ↔ d ∉ processed := by
  obtain ⟨unchanged, hbase, hprocessed⟩ := h.account
  have hmem (f : PackageFile) : f ∈ base ↔ (f ∈ remaining.held ∨ f ∈ unchanged) ∨
      ∃ c ∈ changes, f ∈ c.bases := by
    rw [← Multiset.mem_coe, ← hbase]
    simp
  have hdone (f : PackageFile) : f ∈ processed ↔ f ∈ unchanged ∨ ∃ c ∈ changes, f ∈ c.desireds := by
    rw [← Multiset.mem_coe, ← hprocessed]
    simp
  have hdesired {d' : PackageFile} (hd' : d' ∈ processed) (hp : d'.path = d.path) : d' = d :=
    List.inj_on_of_nodup_map hl.desired_paths (hsub hd') hd hp
  constructor
  · intro hheld hd'
    -- the base is split into the files held, the unchanged ones and those of the changes
    have hnodup : (remaining.held + unchanged +
        ↑(changes.flatMap bases)).Nodup := hbase ▸ hl.base_paths.of_map _
    obtain ⟨hnodup, -, hchanged⟩ := Multiset.nodup_add.1 hnodup
    obtain ⟨-, -, hunchanged⟩ := Multiset.nodup_add.1 hnodup
    obtain hd' | ⟨c, hc, hd'⟩ := (hdone d).1 hd'
    · have hdb : d ∈ base := (hmem d).2 (.inl (.inr hd'))
      have hbd : b = d := List.inj_on_of_nodup_map hl.base_paths hb hdb hpath
      exact Multiset.disjoint_left.1 hunchanged hheld (hbd ▸ hd')
    · obtain ⟨b', d', rfl, hpath', -⟩ | ⟨-, hnot⟩ := h.isLocal c hc
      · obtain rfl : d = d' := List.mem_singleton.1 hd'
        have hb' : b' ∈ base := (hmem b').2 (.inr ⟨_, hc, List.mem_singleton_self _⟩)
        obtain rfl := List.inj_on_of_nodup_map hl.base_paths hb hb' (hpath.trans hpath'.symm)
        exact Multiset.disjoint_left.1 hchanged (Multiset.mem_add.2 (.inl hheld))
          (List.mem_flatMap.2 ⟨_, hc, List.mem_singleton_self _⟩)
      · exact hnot d hd' (hpath ▸ List.mem_map_of_mem hb)
  · intro hd'
    obtain (hheld | hb') | ⟨c, hc, hb'⟩ := (hmem b).1 hb
    · exact hheld
    · have hb' := (hdone b).2 (.inl hb')
      exact absurd (hdesired hb' hpath ▸ hb') hd'
    · obtain ⟨b', d', rfl, hpath', -⟩ | ⟨hnot, -⟩ := h.isLocal c hc
      · obtain rfl : b = b' := List.mem_singleton.1 hb'
        have hd'' : d' ∈ processed := (hdone d').2 (.inr ⟨_, hc, List.mem_singleton_self _⟩)
        exact absurd (hdesired hd'' (hpath'.symm.trans hpath) ▸ hd'') hd'
      · exact absurd (hpath ▸ List.mem_map_of_mem hd) (hnot b hb')

theorem changeOf_cases (previous d : PackageFile) :
    (changeOf previous d = none ∧ previous.path = d.path ∧ previous.blobSha = d.blobSha) ∨
    ∃ c, changeOf previous d = some c ∧ c.bases = [previous] ∧ c.desireds = [d] ∧
      (previous.path = d.path → c = .modified previous d ∧ previous.blobSha ≠ d.blobSha) := by
  unfold changeOf
  split_ifs with hpath hblob hblob
  · exact .inr ⟨_, rfl, rfl, rfl, fun h => absurd h hpath⟩
  · exact .inr ⟨_, rfl, rfl, rfl, fun h => absurd h hpath⟩
  · exact .inr ⟨_, rfl, rfl, rfl, fun _ => ⟨rfl, hblob⟩⟩
  · exact .inl ⟨rfl, not_not.1 hpath, not_not.1 hblob⟩

/-- A change is recorded, and its base file leaves the groups. -/
theorem Paired.record (h : Paired base desired processed remaining changes) {remaining' : Groups}
    {c : PackageFileChange} (hsorted : remaining'.Sorted)
    (hheld : remaining.held = remaining'.held + c.bases) (hdesireds : c.desireds = [d])
    (hlocal : Local (paths desired) (paths base) c)
    (hgroup : ∀ k, ∀ b ∈ remaining'.group k, b ∈ remaining.group k)
    (hadded : c = .added d → ∀ b ∈ remaining.group (fileMatchKey d), b.path ∈ paths desired) :
    Paired base desired (processed ++ [d]) remaining' (changes ++ [c]) := by
  obtain ⟨unchanged, hbase, hprocessed⟩ := h.account
  have hnew : ∀ c' ∈ changes ++ [c], c' ∈ changes ∨ c' = c := by simp
  refine ⟨hsorted, ⟨unchanged, ?_, ?_⟩, fun c' hc' => ?_, fun d' hd' b hb => ?_, fun b hb => ?_⟩
  · rw [List.flatMap_append, List.flatMap_singleton, ← Multiset.coe_add, ← hbase, hheld]
    abel
  · rw [List.flatMap_append, List.flatMap_singleton, hdesireds, ← Multiset.coe_add,
      ← Multiset.coe_add, ← add_assoc, hprocessed]
  · obtain hc' | rfl := hnew c' hc'
    · exact h.isLocal c' hc'
    · exact hlocal
  · obtain hd' | rfl := hnew _ hd'
    · exact h.apart d' hd' b (hgroup _ b hb)
    · obtain rfl := List.singleton_inj.1 hdesireds
      exact hadded rfl b (hgroup _ b hb)
  · obtain hb | rfl := hnew _ hb
    · exact h.kept b hb
    · cases hdesireds

/-- A file that is unpaired has no base file at its path, since that one would be in its group. -/
theorem Paired.added (h : Paired base desired processed remaining changes)
    (hwait : ∀ b ∈ base, b.path = d.path → b ∈ remaining.group (fileMatchKey d))
    (hall : ∀ b ∈ remaining.group (fileMatchKey d), b.path ≠ d.path ∧ b.path ∈ paths desired) :
    Paired base desired (processed ++ [d]) remaining (changes ++ [.added d]) := by
  refine h.record h.sorted (by simp [bases]) rfl (.inr ⟨nofun, fun d' hd' hmem => ?_⟩)
    (fun _ _ => id) fun _ b hb => (hall b hb).2
  obtain rfl := List.mem_singleton.1 hd'
  obtain ⟨b, hb, hpath⟩ := List.mem_map.1 hmem
  exact (hall b (hwait b hb hpath)).1 hpath

/-- A pair takes its base file out of its group; it is recorded unless the two are the same. -/
theorem Paired.paired (h : Paired base desired processed remaining changes)
    (hl : Listings base desired) (hd : d ∈ desired)
    (hwait : ∀ b ∈ base, b.path = d.path → b ∈ remaining.group (fileMatchKey d))
    {previous : PackageFile} {rest : List PackageFile}
    (hperm : (remaining.group (fileMatchKey d)).Perm (previous :: rest))
    (hpath : previous.path = d.path ∨ previous.path ∉ paths desired ∧
      ∀ b ∈ remaining.group (fileMatchKey d), b.path ≠ d.path) :
    Paired base desired (processed ++ [d]) (remaining.set (fileMatchKey d) rest)
      (changes ++ (changeOf previous d).toList) := by
  obtain ⟨unchanged, hbase, hprocessed⟩ := h.account
  have hheld : remaining.held = Groups.held (remaining.set (fileMatchKey d) rest) + {previous} := by
    have hset := remaining.held_set (fileMatchKey d) rest
    rw [Multiset.coe_eq_coe.2 hperm, ← Multiset.cons_coe, ← Multiset.singleton_add,
      ← add_assoc] at hset
    exact (add_right_cancel hset).symm
  have hrest : ∀ b ∈ rest, b ∈ remaining.group (fileMatchKey d) := fun b hb =>
    hperm.symm.subset (List.mem_cons_of_mem _ hb)
  have hgroup : ∀ k, ∀ b ∈ Groups.group (remaining.set (fileMatchKey d) rest) k,
      b ∈ remaining.group k := by
    intro k b hb
    rw [Groups.group_set] at hb
    split_ifs at hb with hk
    · exact hk ▸ hrest b hb
    · exact hb
  have hsorted := h.sorted.set fun b hb => h.sorted _ b (hrest b hb)
  have hprevious : previous ∈ base := by
    rw [← Multiset.mem_coe, ← hbase, hheld]
    simp
  obtain ⟨hnone, hsame, hblob⟩ | ⟨c, hsome, hbases, hdesireds, hmodified⟩ :=
    changeOf_cases previous d
  · obtain rfl : previous = d := by
      rw [hl.agree previous hprevious d hd hsame, hblob]
    simp only [hnone, Option.toList_none, List.append_nil]
    refine ⟨hsorted, ⟨previous ::ₘ unchanged, ?_, ?_⟩, h.isLocal,
      fun d' hd' b hb => h.apart d' hd' b (hgroup _ b hb), h.kept⟩
    · rw [← hbase, hheld, ← Multiset.singleton_add]
      abel
    · rw [← Multiset.coe_add, ← hprocessed, ← Multiset.singleton_add, Multiset.coe_singleton]
      abel
  · rw [hsome, Option.toList_some]
    refine h.record hsorted (hbases ▸ hheld) hdesireds ?_ hgroup fun hadded => ?_
    · rw [Local, hbases, hdesireds]
      obtain hsame | ⟨hfree, hother⟩ := hpath
      · obtain ⟨rfl, hblob⟩ := hmodified hsame
        exact .inl ⟨_, _, rfl, hsame, hblob⟩
      · refine .inr ⟨by simpa using hfree, ?_⟩
        rintro d' hd' hmem
        obtain rfl := List.mem_singleton.1 hd'
        obtain ⟨b, hb, hb'⟩ := List.mem_map.1 hmem
        exact hother b (hwait b hb hb') hb'
    · rw [hadded] at hbases
      cases hbases

theorem Paired.step (h : Paired base desired processed remaining changes)
    (hl : Listings base desired) (hsub : processed ++ [d] ⊆ desired) (hfresh : d ∉ processed) :
    Paired base desired (processed ++ [d])
      (pairFile (paths desired) (remaining, changes) d).1
      (pairFile (paths desired) (remaining, changes) d).2 := by
  have hd : d ∈ desired := hsub (List.mem_append_right _ (List.mem_singleton_self d))
  have hwait : ∀ b ∈ base, b.path = d.path → b ∈ remaining.group (fileMatchKey d) := by
    intro b hb hpath
    rw [← hl.fileMatchKey_eq hb hd hpath, ← h.sorted.mem_held]
    exact (h.held_iff hl (fun _ hf => hsub (List.mem_append_left _ hf)) hb hd hpath).2 hfresh
  obtain ⟨heq, hall⟩ | ⟨previous, rest, hperm, heq, hpath⟩ :=
    pairFile_cases (paths desired) remaining changes d
  · rw [heq]
    exact h.added hwait hall
  · rw [heq]
    exact h.paired hl hd hwait hperm hpath

theorem paired_foldl (hl : Listings base desired) (rest : List PackageFile)
    (h : processed ++ rest = desired) :
    Paired base desired processed
      (processed.foldl (pairFile (paths desired)) (groupFiles base, [])).1
      (processed.foldl (pairFile (paths desired)) (groupFiles base, [])).2 := by
  induction processed using List.reverseRecOn generalizing rest with
  | nil =>
    obtain ⟨hsorted, hheld⟩ := groupFiles_sorted base
    exact ⟨hsorted, ⟨0, by simp [hheld], rfl⟩, by simp, by simp, by simp⟩
  | append_singleton processed d ih =>
    rw [List.foldl_concat]
    have hnodup : (processed ++ [d]).Nodup :=
      (h ▸ hl.desired_paths.of_map _ : (processed ++ [d] ++ rest).Nodup).of_append_left
    refine (ih (d :: rest) (by simpa using h)).step hl ?_ ?_
    · exact h ▸ List.subset_append_left _ _
    · exact (List.nodup_append.1 hnodup).2.2 |> fun hne hd => hne d hd d (by simp) rfl

end Pairing

/-! ## Exactness -/

/-- The changes lead from the base to the desired files, with every file in one change at most and
none where nothing changes, and no match key is both added and deleted. -/
structure IsExact (base desired : List PackageFile) (changes : List PackageFileChange) : Prop where
  apply : (applyChanges changes base).Perm desired
  base_once : (changes.flatMap bases).Nodup
  desired_once : (changes.flatMap desireds).Nodup
  minimal : ∀ b ∈ base, ∀ d ∈ desired, b.path = d.path → b.blobSha = d.blobSha →
    ∀ c ∈ changes, ∀ f ∈ c.bases ++ c.desireds, f.path ≠ b.path
  apart : ∀ b d, .deleted b ∈ changes → .added d ∈ changes → fileMatchKey b ≠ fileMatchKey d

theorem isExact_diff {base desired : List PackageFile} (hl : Listings base desired) :
    IsExact base desired (diffPackageFiles base desired) := by
  have h := paired_foldl hl [] (List.append_nil desired)
  unfold diffPackageFiles
  generalize desired.foldl (pairFile (paths desired)) (groupFiles base, []) = s at h ⊢
  obtain ⟨remaining, changes⟩ := s
  obtain ⟨unchanged, hbase, hdesired⟩ := h.account
  have hheld := remaining.held_eq
  dsimp only at h hbase hdesired ⊢
  generalize remaining.values.flatten = leftover at hheld ⊢
  have hbases : (changes ++ leftover.map deleted).flatMap bases =
      changes.flatMap bases ++ leftover := by
    simp [List.flatMap_map, bases]
  have hdesireds : (changes ++ leftover.map deleted).flatMap desireds =
      changes.flatMap desireds := by
    simp [List.flatMap_map, desireds]
  have hsplit : (base : Multiset PackageFile) =
      unchanged + ↑(changes.flatMap bases ++ leftover) := by
    rw [← hbase, hheld, ← Multiset.coe_add]
    abel
  -- what is left over stands at no path of a desired file
  have hleft : ∀ b ∈ leftover, b ∈ base ∧ b.path ∉ paths desired := by
    intro b hb
    have hb' : b ∈ base := by
      rw [← Multiset.mem_coe, hsplit]
      simp [hb]
    refine ⟨hb', fun hmem => ?_⟩
    obtain ⟨d, hd, hpath⟩ := List.mem_map.1 hmem
    exact (h.held_iff hl (List.Subset.refl _) hb' hd hpath.symm).1 (hheld ▸ hb) hd
  have hlocal : ∀ c ∈ changes ++ leftover.map deleted,
      Local (paths desired) (paths base) c := by
    intro c hc
    obtain hc | hc := List.mem_append.1 hc
    · exact h.isLocal c hc
    · obtain ⟨b, hb, rfl⟩ := List.mem_map.1 hc
      exact .inr ⟨by simpa [bases] using (hleft b hb).2, by
        simp [desireds]⟩
  refine ⟨?_, ?_, ?_, ?_, ?_⟩
  · rw [applyChanges, hbases, hdesireds, ← Multiset.coe_eq_coe, ← Multiset.coe_add,
      ← Multiset.coe_sub, hsplit, add_tsub_cancel_right, hdesired]
  · rw [hbases, ← Multiset.coe_nodup]
    exact Multiset.nodup_of_le (hsplit ▸ Multiset.le_add_left _ _)
      (Multiset.coe_nodup.2 (hl.base_paths.of_map _))
  · rw [hdesireds, ← Multiset.coe_nodup]
    exact Multiset.nodup_of_le (hdesired ▸ Multiset.le_add_left _ _)
      (Multiset.coe_nodup.2 (hl.desired_paths.of_map _))
  · intro b hb d hd hpath hblob c hc f hf hfb
    obtain ⟨b', d', rfl, hpath', hblob'⟩ | ⟨hnob, hnod⟩ := hlocal c hc
    · have hb' : b' ∈ base := by
        rw [← Multiset.mem_coe, hsplit]
        exact Multiset.mem_add.2
          (.inr (hbases ▸ List.mem_flatMap.2 ⟨_, hc, List.mem_singleton_self _⟩))
      have hd' : d' ∈ desired := by
        rw [← Multiset.mem_coe, ← hdesired]
        exact Multiset.mem_add.2
          (.inr (hdesireds ▸ List.mem_flatMap.2 ⟨_, hc, List.mem_singleton_self _⟩))
      have hfb' : b'.path = b.path := by
        obtain rfl | rfl : f = b' ∨ f = d' := by simpa [bases, desireds] using hf
        exacts [hfb, hpath'.trans hfb]
      obtain rfl := List.inj_on_of_nodup_map hl.base_paths hb' hb hfb'
      obtain rfl := List.inj_on_of_nodup_map hl.desired_paths hd' hd (hpath'.symm.trans hpath)
      exact hblob' hblob
    · obtain hf | hf := List.mem_append.1 hf
      · exact hnob f hf (hfb ▸ hpath ▸ List.mem_map_of_mem hd)
      · exact hnod f hf (hfb ▸ List.mem_map_of_mem hb)
  · intro b d hb hd hkey
    replace hb : b ∈ leftover := by simpa [h.kept] using hb
    replace hd : .added d ∈ changes := by simpa using hd
    refine (hleft b hb).2 (h.apart d hd b ?_)
    rw [← hkey, ← h.sorted.mem_held, hheld]
    exact hb

/-! ## Listings of a package -/

section Parsing

variable {options : ParseOptions} {listed : List ListedFile}

theorem parsePackageFile_eq_some {file : ListedFile} {f : PackageFile}
    (h : parsePackageFile options file = some f) :
    f.path = file.path ∧ f.blobSha = file.blobSha := by
  simp only [parsePackageFile] at h
  split_ifs at h <;> (obtain ⟨entity, -, rfl⟩ := Option.map_eq_some_iff.1 h; exact ⟨rfl, rfl⟩)

theorem parsed_of_mem {f : PackageFile} (h : f ∈ parsePackageFiles options listed) :
    parsePackageFile options ⟨f.path, f.blobSha⟩ = some f := by
  obtain ⟨file, -, hf⟩ := List.mem_filterMap.1 h
  obtain ⟨hpath, hblob⟩ := parsePackageFile_eq_some hf
  rw [hpath, hblob]
  exact hf

theorem parsed_paths (h : (listed.map ListedFile.path).Nodup) :
    (paths (parsePackageFiles options listed)).Nodup := by
  refine List.pairwise_map.2 ((List.pairwise_map.1 h).filterMap _ ?_)
  intro file file' hne f hf f' hf'
  rw [(parsePackageFile_eq_some hf).1, (parsePackageFile_eq_some hf').1]
  exact hne

end Parsing

theorem diffPackageFiles_exact (options : ParseOptions) (base desired : List ListedFile)
    (hbase : (base.map ListedFile.path).Nodup) (hdesired : (desired.map ListedFile.path).Nodup) :
    IsExact (parsePackageFiles options base) (parsePackageFiles options desired)
      (diffPackageFiles (parsePackageFiles options base) (parsePackageFiles options desired)) := by
  refine isExact_diff ⟨parsed_paths hbase, parsed_paths hdesired, fun b hb d hd hpath => ?_⟩
  have hb := parsed_of_mem hb
  rw [hpath, parsePackageFile_eq options _ _ d.blobSha, parsed_of_mem hd] at hb
  exact (Option.some.inj hb).symm

/-- A workflow that is renamed, beside a credential that is left alone. -/
theorem diffPackageFiles_exact_renamed :
    let options : ParseOptions := ⟨js "root".toList, js "p1".toList⟩
    let path (text : String) : JsString := js ("root/projects/shop-p1/" ++ text).toList
    let credential : ListedFile := ⟨path "credentials/key-k1/credential.json", js ['a']⟩
    let base := [credential, ⟨path "workflows/old-w1/workflow.json", js ['b']⟩]
    let desired := [credential, ⟨path "workflows/new-w1/workflow.json", js ['b']⟩]
    IsExact (parsePackageFiles options base) (parsePackageFiles options desired)
      (diffPackageFiles (parsePackageFiles options base) (parsePackageFiles options desired)) ∧
    (diffPackageFiles (parsePackageFiles options base)
      (parsePackageFiles options desired)).length = 1 :=
  ⟨diffPackageFiles_exact _ _ _ (by decide) (by decide), by decide⟩

end N8n.Promotions
