/-
A written lock file is read back exactly where no string of it has a character whose debug
escape TOML does not have; the order of its parts is not written.
-/
import Wado.Manifest.LockFile
import Wado.TomlReads
import Mathlib.Data.List.Pairwise

namespace Wado.Manifest

open Toml EscapeDebug

section Rows

variable {α : Type}

theorem IndexMap.ext {m m' : IndexMap α} (h : m.entries = m'.entries) : m = m' := by
  obtain ⟨entries, _⟩ := m
  obtain ⟨entries', _⟩ := m'
  obtain rfl : entries = entries' := h
  rfl

theorem IndexMap.update_fresh {key : Text} {entries : List (Text × α)}
    (h : key ∉ keys entries) (value : α) :
    IndexMap.update key value entries = entries ++ [(key, value)] := by
  induction entries with
  | nil => rfl
  | cons entry entries ih =>
    simp only [keys, List.map_cons, List.mem_cons, not_or] at h ih
    rw [IndexMap.update, if_neg (Ne.symm h.1), ih h.2]
    rfl

theorem IndexMap.foldl_insert (m : IndexMap α) (entries : List (Text × α))
    (h : (keys (m.entries ++ entries)).Nodup) :
    (entries.foldl (fun m entry => m.insert entry.1 entry.2) m).entries = m.entries ++ entries := by
  induction entries generalizing m with
  | nil => simp
  | cons entry entries ih =>
    have hfresh : entry.1 ∉ keys m.entries := by
      intro hmem
      rw [keys, List.map_append, List.map_cons] at h
      exact (List.disjoint_of_nodup_append h) hmem (by simp)
    have hinsert : (m.insert entry.1 entry.2).entries = m.entries ++ [entry] :=
      IndexMap.update_fresh hfresh entry.2
    rw [List.foldl_cons, ih (m.insert entry.1 entry.2) (by
      rw [hinsert, List.append_assoc]
      exact h), hinsert, List.append_assoc]
    rfl

/-- A map is read from its own entries. -/
theorem IndexMap.fromEntries_entries (m : IndexMap α) : IndexMap.fromEntries m.entries = m := by
  apply IndexMap.ext
  exact IndexMap.foldl_insert IndexMap.empty m.entries m.distinct

/-- The row of a field that may be absent. -/
def optionalRow (key : String) (value : α → Value) : Option α → Table
  | some a => [(key.toList, value a)]
  | none => []

def packageRows (pkg : LockedPackage) : Table :=
  [("id".toList, .string pkg.id), ("version".toList, .string pkg.version)] ++
    optionalRow "resolved-ref" .string pkg.resolvedRef ++
    optionalRow "integrity" .string pkg.integrity ++
    (if pkg.dev then [("dev".toList, .boolean true)] else []) ++
    (if pkg.world.entries = [] then [] else [("world".toList, .table pkg.world.entries)]) ++
    [("deps".toList, .strings pkg.deps)]

def remoteRows (remote : LockedRemote) : Table :=
  [("url".toList, .string remote.url)] ++
    optionalRow "extent" (fun extent => .integer extent.toNat) remote.extent ++
    [("integrity".toList, .string remote.integrity)]

def rootRows (lock : LockFile) : Table :=
  [("version".toList, .integer lock.version.toNat), ("deps-hash".toList, .string lock.depsHash)]

def blocks (lock : LockFile) : List (Text × Table) :=
  (sortedPackages lock.packages).map (fun pkg => ("package".toList, packageRows pkg)) ++
    (sortedPackages lock.buildDependencies).map
      (fun pkg => ("build-dependency".toList, packageRows pkg)) ++
    (sortedRemotes lock.remotes).map fun remote => ("remote".toList, remoteRows remote)

def comment : Text :=
  " This file is auto-generated by wado. Do not edit manually.".toList

variable {t : CharTable}

def unlines (lines : List Text) : Text := lines.flatMap (· ++ ['\n'])

theorem unlines_append (lines lines' : List Text) :
    unlines (lines ++ lines') = unlines lines ++ unlines lines' :=
  List.flatMap_append

/-- Rows, a line each. -/
def written (t : CharTable) (rows : Table) : Text := unlines (rows.map (rowText t))

theorem written_append (rows rows' : Table) :
    written t (rows ++ rows') = written t rows ++ written t rows' := by
  rw [written, List.map_append, unlines_append]
  rfl

theorem written_row (key : Text) (value : Value) :
    written t [(key, value)] = key ++ " = ".toList ++ value.text t ++ ['\n'] := by
  rw [written, List.map_singleton, unlines, List.flatMap_singleton]
  rfl

theorem writeString_eq (key : String) (value : Text) :
    writeString t key value = written t [(key.toList, .string value)] := by
  rw [written_row]
  rfl

theorem writeWorld_eq (world : IndexMap Text) : writeWorld t world =
      written t (if world.entries = [] then [] else [("world".toList, .table world.entries)]) := by
  unfold writeWorld
  by_cases hnil : world.entries = []
  · rw [if_pos hnil, if_pos hnil]
    rfl
  · rw [if_neg hnil, if_neg hnil, written_row]
    change "world = ".toList ++ ['{', ' '] ++
      ", ".toList.intercalate (world.entries.map (entryText t)) ++ [' ', '}', '\n'] = _
    simp [Value.text]

theorem writeDeps_eq (deps : List Text) :
    writeDeps t deps = written t [("deps".toList, .strings deps)] := by
  unfold writeDeps
  by_cases hnil : deps = []
  · rw [if_pos hnil, hnil]
    rfl
  · rw [if_neg hnil, written_row]
    simp [Value.text]

theorem unlines_block (name : Text) (rows : Table) : unlines (blockLines t (name, rows)) =
      ['\n'] ++ ('[' :: '[' :: (name ++ [']', ']'])) ++ ['\n'] ++ written t rows := by
  simp [unlines, blockLines, written]

theorem writeOptional_eq (key : String) (value : Option Text) :
    writeOptional t key value = written t (optionalRow key .string value) := by
  cases value with
  | none => rfl
  | some value => exact writeString_eq key value

theorem writeExtent_eq (extent : Option UInt64) : writeExtent extent =
      written t (optionalRow "extent" (fun extent => .integer extent.toNat) extent) := by
  cases extent with
  | none => rfl
  | some extent => exact (written_row "extent".toList (.integer extent.toNat)).symm

theorem writeDev_eq (dev : Bool) : (if dev then "dev = true\n".toList else []) =
      written t (if dev then [("dev".toList, .boolean true)] else []) := by
  cases dev <;> rfl

theorem writeLockedPackage_eq (name : Text) (pkg : LockedPackage) (header : String)
    (hheader : header.toList = '[' :: '[' :: (name ++ [']', ']'])) :
    writeLockedPackage t header pkg = unlines (blockLines t (name, packageRows pkg)) := by
  have hid : written t [("id".toList, .string pkg.id), ("version".toList, .string pkg.version)] =
      writeString t "id" pkg.id ++ writeString t "version" pkg.version := by
    rw [writeString_eq, writeString_eq, ← written_append]
    rfl
  rw [unlines_block, writeLockedPackage, hheader, writeOptional_eq, writeOptional_eq,
    writeDev_eq (t := t), writeWorld_eq, writeDeps_eq, packageRows, written_append, written_append,
      written_append,
    written_append, written_append, hid]
  simp only [List.append_assoc]

theorem writeRemote_eq (remote : LockedRemote) :
    writeRemote t remote = unlines (blockLines t ("remote".toList, remoteRows remote)) := by
  have hheader : "\n[[remote]]\n".toList =
      ['\n'] ++ ('[' :: '[' :: ("remote".toList ++ [']', ']'])) ++ ['\n'] := by rfl
  unfold writeRemote
  rw [unlines_block, writeExtent_eq (t := t), remoteRows, written_append,
    written_append, writeString_eq, writeString_eq]
  simp only [hheader, List.append_assoc]

theorem flatMap_write {β : Type} {write : β → Text} {block : β → Text × Table}
    (h : ∀ b, write b = unlines (blockLines t (block b))) (items : List β) :
    items.flatMap write = unlines ((items.map block).flatMap (blockLines t)) := by
  induction items with
  | nil => rfl
  | cons b items ih =>
    rw [List.flatMap_cons, List.map_cons, List.flatMap_cons, unlines_append, ih, h]

theorem unlines_document (comment : Text) (root : Table) (blocks : List (Text × Table)) :
    unlines (documentLines t comment root blocks) =
      unlines ['#' :: comment] ++ (written t root ++ unlines (blocks.flatMap (blockLines t))) := by
  rw [written, ← unlines_append, ← unlines_append]
  rfl

/-- A lock file is written as the lines of its document. -/
theorem toToml_eq (lock : LockFile) :
    lock.toToml t = unlines (documentLines t comment (rootRows lock) (blocks lock)) := by
  have hpackages := flatMap_write (t := t)
    (fun pkg => writeLockedPackage_eq "package".toList pkg "[[package]]" rfl)
    (sortedPackages lock.packages)
  have hbuild := flatMap_write (t := t)
    (fun pkg => writeLockedPackage_eq "build-dependency".toList pkg "[[build-dependency]]" rfl)
    (sortedPackages lock.buildDependencies)
  have hremotes := flatMap_write (t := t) writeRemote_eq (sortedRemotes lock.remotes)
  have hroot : written t (rootRows lock) =
      ("version = ".toList ++ Nat.toDigits 10 lock.version.toNat ++ ['\n']) ++
        writeString t "deps-hash" lock.depsHash := by
    have hversion : "version = ".toList = "version".toList ++ " = ".toList := by rfl
    rw [writeString_eq]
    simp only [hversion]
    change written t ([("version".toList, .integer lock.version.toNat)] ++ _) = _
    rw [written_append, written_row]
    rfl
  have hcomment : "# This file is auto-generated by wado. Do not edit manually.\n".toList =
      unlines [('#' :: comment)] := by rfl
  unfold LockFile.toToml
  rw [hpackages, hbuild, hremotes, unlines_document, blocks, List.flatMap_append,
    List.flatMap_append, unlines_append, unlines_append, hroot]
  simp only [hcomment, List.append_assoc]

end Rows

section Formed

/-- A name of the lock file is written bare. -/
def bareName (name : String) : Bool := name.toList ≠ [] ∧ name.toList.all isBare

theorem rowFormed (name : String) (hname : bareName name = true) {value : Value}
    (hvalue : value.Formed) : RowFormed (name.toList, value) := by
  simp only [bareName, decide_eq_true_eq] at hname
  exact ⟨hname.1, fun c hc => List.all_eq_true.mp hname.2 c hc, hvalue⟩

theorem blockFormed (name : String) (hname : bareName name = true) {rows : Table}
    (hrows : ∀ row ∈ rows, RowFormed row) (hnodup : (keys rows).Nodup) :
    BlockFormed (name.toList, rows) := by
  obtain ⟨hne, hbare, _⟩ := @rowFormed name hname (.boolean true) trivial
  exact ⟨hne, hbare, hrows, hnodup⟩

theorem rootRows_formed (lock : LockFile) : ∀ row ∈ rootRows lock, RowFormed row := by
  intro row hrow
  rcases List.mem_pair.mp hrow with rfl | rfl
  · exact rowFormed "version" (by decide) trivial
  · exact rowFormed "deps-hash" (by decide) trivial

theorem rootRows_nodup (lock : LockFile) : (keys (rootRows lock)).Nodup := by
  have hall : ["version".toList, "deps-hash".toList].Nodup := by decide
  exact hall

theorem mem_packageRows {pkg : LockedPackage} {row : Text × Value} : row ∈ packageRows pkg ↔
      row = ("id".toList, .string pkg.id) ∨ row = ("version".toList, .string pkg.version) ∨
      (∃ r, pkg.resolvedRef = some r ∧ row = ("resolved-ref".toList, .string r)) ∨
      (∃ i, pkg.integrity = some i ∧ row = ("integrity".toList, .string i)) ∨
      (pkg.dev = true ∧ row = ("dev".toList, .boolean true)) ∨
      (pkg.world.entries ≠ [] ∧ row = ("world".toList, .table pkg.world.entries)) ∨
      row = ("deps".toList, .strings pkg.deps) := by
  simp only [packageRows, List.mem_append, or_assoc, List.mem_pair, List.mem_singleton]
  refine or_congr_right (or_congr_right (or_congr ?_ (or_congr ?_ (or_congr ?_ (or_congr ?_ ?_)))))
  · cases pkg.resolvedRef <;> simp [optionalRow]
  · cases pkg.integrity <;> simp [optionalRow]
  · cases pkg.dev <;> simp
  · by_cases hworld : pkg.world.entries = [] <;> simp [hworld]
  · rfl

theorem packageRows_formed (pkg : LockedPackage) : ∀ row ∈ packageRows pkg, RowFormed row := by
  intro row hrow
  rcases mem_packageRows.mp hrow with
    rfl | rfl | ⟨r, _, rfl⟩ | ⟨i, _, rfl⟩ | ⟨_, rfl⟩ | ⟨hne, rfl⟩ | rfl
  · exact rowFormed "id" (by decide) trivial
  · exact rowFormed "version" (by decide) trivial
  · exact rowFormed "resolved-ref" (by decide) trivial
  · exact rowFormed "integrity" (by decide) trivial
  · exact rowFormed "dev" (by decide) trivial
  · exact rowFormed "world" (by decide) ⟨hne, pkg.world.distinct⟩
  · exact rowFormed "deps" (by decide) trivial

theorem packageRows_nodup (pkg : LockedPackage) : (keys (packageRows pkg)).Nodup := by
  have hall : ["id".toList, "version".toList, "resolved-ref".toList, "integrity".toList,
      "dev".toList, "world".toList, "deps".toList].Nodup := by decide
  apply List.Nodup.sublist _ hall
  have hhead := List.Sublist.refl ["id".toList, "version".toList]
  have hresolvedRef : (keys (optionalRow "resolved-ref" .string pkg.resolvedRef)).Sublist
      ["resolved-ref".toList] := by
    cases pkg.resolvedRef <;> simp [optionalRow, keys]
  have hintegrity : (keys (optionalRow "integrity" .string pkg.integrity)).Sublist
      ["integrity".toList] := by
    cases pkg.integrity <;> simp [optionalRow, keys]
  have hdev : (keys (if pkg.dev then [("dev".toList, Value.boolean true)] else [])).Sublist
      ["dev".toList] := by
    cases pkg.dev <;> simp [keys]
  have hworld : (keys (if pkg.world.entries = [] then []
      else [("world".toList, Value.table pkg.world.entries)])).Sublist ["world".toList] := by
    by_cases hnil : pkg.world.entries = [] <;> simp [hnil, keys]
  have hdeps := List.Sublist.refl ["deps".toList]
  have happend := ((((hhead.append hresolvedRef).append hintegrity).append hdev).append
    hworld).append hdeps
  rw [packageRows, keys, List.map_append, List.map_append, List.map_append, List.map_append,
    List.map_append]
  exact happend

theorem mem_remoteRows {remote : LockedRemote} {row : Text × Value} : row ∈ remoteRows remote ↔
      row = ("url".toList, .string remote.url) ∨
      (∃ extent, remote.extent = some extent ∧ row = ("extent".toList, .integer extent.toNat)) ∨
      row = ("integrity".toList, .string remote.integrity) := by
  simp only [remoteRows, List.mem_append, or_assoc, List.mem_singleton]
  refine or_congr_right (or_congr ?_ Iff.rfl)
  cases remote.extent <;> simp [optionalRow]

theorem remoteRows_formed (remote : LockedRemote) : ∀ row ∈ remoteRows remote, RowFormed row := by
  intro row hrow
  rcases mem_remoteRows.mp hrow with rfl | ⟨extent, _, rfl⟩ | rfl
  · exact rowFormed "url" (by decide) trivial
  · exact rowFormed "extent" (by decide) trivial
  · exact rowFormed "integrity" (by decide) trivial

theorem remoteRows_nodup (remote : LockedRemote) : (keys (remoteRows remote)).Nodup := by
  have hall : ["url".toList, "extent".toList, "integrity".toList].Nodup := by decide
  apply List.Nodup.sublist _ hall
  unfold remoteRows keys
  cases remote.extent <;> simp [optionalRow]

theorem blocks_formed (lock : LockFile) :
    ∀ block ∈ blocks lock, BlockFormed block ∧ block.1 ∉ keys (rootRows lock) := by
  intro block hblock
  simp only [blocks, List.mem_append, List.mem_map] at hblock
  rcases hblock with (⟨pkg, _, rfl⟩ | ⟨pkg, _, rfl⟩) | ⟨remote, _, rfl⟩
  · exact ⟨blockFormed "package" (by decide) (packageRows_formed pkg)
      (packageRows_nodup pkg), by simp [keys, rootRows]⟩
  · exact ⟨blockFormed "build-dependency" (by decide) (packageRows_formed pkg)
      (packageRows_nodup pkg), by simp [keys, rootRows]⟩
  · exact ⟨blockFormed "remote" (by decide) (remoteRows_formed remote)
      (remoteRows_nodup remote), by simp [keys, rootRows]⟩

end Formed

section Readable

/-- The strings of a package. -/
def LockedPackage.strings (pkg : LockedPackage) : List Text :=
  [pkg.id, pkg.version] ++ pkg.resolvedRef.toList ++ pkg.integrity.toList ++
    pkg.world.entries.flatMap (fun entry => [entry.1, entry.2]) ++ pkg.deps

/-- The strings of a lock file. -/
def LockFile.strings (lock : LockFile) : List Text :=
  [lock.depsHash] ++ lock.packages.flatMap LockedPackage.strings ++
    lock.buildDependencies.flatMap LockedPackage.strings ++
    lock.remotes.flatMap fun remote => [remote.url, remote.integrity]

/-- No string has a NUL, nor a character that Rust's debug form writes by its code. -/
def LockFile.Readable (t : CharTable) (lock : LockFile) : Prop :=
  ∀ s ∈ lock.strings, AllReadable t s

instance (t : CharTable) : DecidablePred (LockFile.Readable t) :=
  fun lock => List.decidableBAll (AllReadable t) lock.strings

variable {t : CharTable}

theorem packageRows_readable (pkg : LockedPackage) :
    (∀ row ∈ packageRows pkg, row.2.Readable t) ↔ ∀ s ∈ pkg.strings, AllReadable t s := by
  constructor
  · intro h s hs
    have hrow {row : Text × Value} (hmem : row ∈ packageRows pkg) := h row hmem
    simp only [LockedPackage.strings, List.mem_append, List.mem_pair, Option.mem_toList,
      List.mem_flatMap] at hs
    rcases hs with ((((rfl | rfl) | hs) | hs) | ⟨entry, hentry, rfl | rfl⟩) | hs
    · exact hrow (mem_packageRows.mpr (.inl rfl))
    · exact hrow (mem_packageRows.mpr (.inr (.inl rfl)))
    · exact hrow (mem_packageRows.mpr (.inr (.inr (.inl ⟨s, hs, rfl⟩))))
    · exact hrow (mem_packageRows.mpr (.inr (.inr (.inr (.inl ⟨s, hs, rfl⟩)))))
    · have hworld := hrow (mem_packageRows.mpr
        (.inr (.inr (.inr (.inr (.inr (.inl ⟨List.ne_nil_of_mem hentry, rfl⟩)))))))
      exact (hworld entry hentry).1
    · have hworld := hrow (mem_packageRows.mpr
        (.inr (.inr (.inr (.inr (.inr (.inl ⟨List.ne_nil_of_mem hentry, rfl⟩)))))))
      exact (hworld entry hentry).2
    · exact hrow (mem_packageRows.mpr (.inr (.inr (.inr (.inr (.inr (.inr rfl))))))) s hs
  · intro h row hrow
    have hstring {s : Text} (hmem : s ∈ pkg.strings) := h s hmem
    simp only [LockedPackage.strings, List.mem_append, List.mem_pair, Option.mem_toList,
      List.mem_flatMap] at hstring
    rcases mem_packageRows.mp hrow with
      rfl | rfl | ⟨r, hr, rfl⟩ | ⟨i, hi, rfl⟩ | ⟨_, rfl⟩ | ⟨hne, rfl⟩ | rfl
    · exact hstring (by simp)
    · exact hstring (by simp)
    · exact hstring (by simp [hr])
    · exact hstring (by simp [hi])
    · trivial
    · intro entry hentry
      exact ⟨hstring (.inl (.inr ⟨entry, hentry, .inl rfl⟩)),
        hstring (.inl (.inr ⟨entry, hentry, .inr rfl⟩))⟩
    · intro s hs
      exact hstring (.inr hs)

theorem remoteRows_readable (remote : LockedRemote) :
    (∀ row ∈ remoteRows remote, row.2.Readable t) ↔
      AllReadable t remote.url ∧ AllReadable t remote.integrity := by
  constructor
  · intro h
    exact ⟨h _ (mem_remoteRows.mpr (.inl rfl)), h _ (mem_remoteRows.mpr (.inr (.inr rfl)))⟩
  · rintro ⟨hurl, hintegrity⟩ row hrow
    rcases mem_remoteRows.mp hrow with rfl | ⟨extent, _, rfl⟩ | rfl
    · exact hurl
    · trivial
    · exact hintegrity

theorem mem_sortedPackages {pkg : LockedPackage} {packages : List LockedPackage} :
    pkg ∈ sortedPackages packages ↔ pkg ∈ packages :=
  (List.mergeSort_perm packages LockedPackage.le).mem_iff

theorem mem_sortedRemotes {remote : LockedRemote} {remotes : List LockedRemote} :
    remote ∈ sortedRemotes remotes ↔ remote ∈ remotes :=
  (List.mergeSort_perm remotes LockedRemote.le).mem_iff

/-- The rows of a lock file are read exactly where its strings are. -/
theorem rows_readable (lock : LockFile) : ((∀ row ∈ rootRows lock, row.2.Readable t) ∧
      ∀ block ∈ blocks lock, ∀ row ∈ block.2, row.2.Readable t) ↔ lock.Readable t := by
  have hroot : (∀ row ∈ rootRows lock, row.2.Readable t) ↔ AllReadable t lock.depsHash := by
    simp [rootRows, Value.Readable]
  have hpackages (name : Text) (packages : List LockedPackage) :
      (∀ block ∈ (sortedPackages packages).map (fun pkg => (name, packageRows pkg)),
        ∀ row ∈ block.2, row.2.Readable t) ↔
      ∀ s ∈ packages.flatMap LockedPackage.strings, AllReadable t s := by
    simp only [List.forall_mem_map, packageRows_readable, mem_sortedPackages, List.mem_flatMap]
    constructor
    · rintro h s ⟨pkg, hpkg, hs⟩
      exact h pkg hpkg s hs
    · intro h pkg hpkg s hs
      exact h s ⟨pkg, hpkg, hs⟩
  have hremotes : (∀ block ∈ (sortedRemotes lock.remotes).map
          (fun remote => ("remote".toList, remoteRows remote)),
        ∀ row ∈ block.2, row.2.Readable t) ↔
      ∀ s ∈ lock.remotes.flatMap (fun remote => [remote.url, remote.integrity]),
        AllReadable t s := by
    simp only [List.forall_mem_map, remoteRows_readable, mem_sortedRemotes, List.mem_flatMap]
    constructor
    · rintro h s ⟨remote, hremote, hs⟩
      rcases List.mem_pair.mp hs with rfl | rfl
      · exact (h remote hremote).1
      · exact (h remote hremote).2
    · intro h remote hremote
      exact ⟨h _ ⟨remote, hremote, by simp⟩, h _ ⟨remote, hremote, by simp⟩⟩
  rw [hroot, blocks]
  simp only [List.forall_mem_append]
  rw [hpackages, hpackages, hremotes]
  simp only [LockFile.Readable, LockFile.strings, List.forall_mem_append,
    List.forall_mem_singleton, and_assoc]

end Readable

section Reading

/-- The document of a lock file. -/
def document (lock : LockFile) : Document := ⟨rootRows lock, (blocks lock).reverse⟩

theorem read_toToml (t : CharTable) (lock : LockFile) :
    Reads (lock.Readable t) (document lock) (read (lock.toToml t)) := by
  have hread := read_document (t := t) comment (rootRows lock) (blocks lock) (by decide)
    (rootRows_formed lock) (rootRows_nodup lock) (fun block h => (blocks_formed lock block h).1)
    fun block h => (blocks_formed lock block h).2
  rw [toToml_eq]
  exact hread.congr (rows_readable lock)

theorem tables_reverse (root : Table) (blocks : List (Text × Table)) (name : Text) :
    (Document.mk root blocks.reverse).tables name =
      (blocks.filter fun block => block.1 = name).map (·.2) := by
  rw [Document.tables, List.filter_reverse, List.map_reverse, List.reverse_reverse]

/-- What is read of a package's rows. -/
def rawPackage (pkg : LockedPackage) : RawLockedPackage where
  id := some pkg.id
  version := some pkg.version
  resolvedRef := pkg.resolvedRef
  integrity := pkg.integrity
  dev := if pkg.dev then some true else none
  world := if pkg.world.entries = [] then none else some pkg.world
  deps := some pkg.deps

theorem rawLockedPackage_rows (pkg : LockedPackage) :
    rawLockedPackage (packageRows pkg) = some (rawPackage pkg) := by
  obtain ⟨id, version, resolvedRef, integrity, dev, ⟨entries, hentries⟩, deps⟩ := pkg
  cases entries with
  | nil => cases resolvedRef <;> cases integrity <;> cases dev <;> rfl
  | cons entry entries =>
    have hworld := IndexMap.fromEntries_entries ⟨entry :: entries, hentries⟩
    have hraw : rawLockedPackage (packageRows
        ⟨id, version, resolvedRef, integrity, dev, ⟨entry :: entries, hentries⟩, deps⟩) =
        some ⟨some id, some version, resolvedRef, integrity, if dev then some true else none,
          some (IndexMap.fromEntries (entry :: entries)), some deps⟩ := by
      cases resolvedRef <;> cases integrity <;> cases dev <;> rfl
    rw [hraw, hworld]
    rfl

theorem convert_rawPackage (pkg : LockedPackage) :
    convertLockedPackage (rawPackage pkg) = .ok pkg := by
  obtain ⟨id, version, resolvedRef, integrity, dev, ⟨entries, hentries⟩, deps⟩ := pkg
  cases entries with
  | nil => cases dev <;> rfl
  | cons entry entries => cases dev <;> rfl

theorem rawLockedRemote_rows (remote : LockedRemote) :
    rawLockedRemote (remoteRows remote) = some remote := by
  obtain ⟨url, extent, integrity⟩ := remote
  cases extent with
  | none => rfl
  | some extent =>
    have hextent : asU64 (.integer extent.toNat) = some extent := by
      rw [asU64, if_pos extent.toNat_lt, UInt64.ofNat_toNat]
    have hraw : rawLockedRemote (remoteRows ⟨url, some extent, integrity⟩) =
        ((asU64 (.integer extent.toNat)).map some).bind
          fun extent => some ⟨url, extent, integrity⟩ := by rfl
    rw [hraw, hextent]
    rfl

/-- The rows under a name, each read as `value` says. -/
theorem optionalRows_eq {β γ : Type} {take : Table → Option γ} {rows : β → Table} {value : β → γ}
    (htake : ∀ b, take (rows b) = some (value b)) (doc : Document) (name : String) (items : List β)
    (hroot : doc.root.lookup name.toList = none)
    (htables : doc.tables name.toList = items.map rows) :
    ∃ found, optionalRows take doc name = some found ∧ found.getD [] = items.map value := by
  have hmapM : (items.map rows).mapM take = some (items.map value) := by
    have hcomp : take ∘ rows = fun b => pure (value b) := funext htake
    rw [List.mapM_map, hcomp, List.mapM_pure]
    rfl
  unfold optionalRows
  rw [hroot, htables]
  cases items with
  | nil => exact ⟨none, rfl, rfl⟩
  | cons b items =>
    refine ⟨some _, ?_, rfl⟩
    rw [if_neg (by simp), hmapM]
    rfl

theorem filter_named {β : Type} (name name' : Text) (rows : β → Table) (items : List β) :
    ((items.map fun b => (name, rows b)).filter fun block => block.1 = name').map (·.2) =
      if name = name' then items.map rows else [] := by
  by_cases heq : name = name'
  · rw [if_pos heq, List.filter_map, List.map_map]
    have hall : items.filter ((fun block : Text × Table => decide (block.1 = name')) ∘
        fun b => (name, rows b)) = items := by
      apply List.filter_eq_self.mpr
      intro b _
      simpa using heq
    rw [hall]
    rfl
  · rw [if_neg heq, List.filter_map, List.map_map]
    have hnone : items.filter ((fun block : Text × Table => decide (block.1 = name')) ∘
        fun b => (name, rows b)) = [] := by
      apply List.filter_eq_nil_iff.mpr
      intro b _
      simpa using heq
    rw [hnone]
    rfl

theorem tables_blocks (lock : LockFile) (name : Text) : (document lock).tables name =
      (if "package".toList = name then (sortedPackages lock.packages).map packageRows else []) ++
      (if "build-dependency".toList = name
        then (sortedPackages lock.buildDependencies).map packageRows else []) ++
      (if "remote".toList = name then (sortedRemotes lock.remotes).map remoteRows else []) := by
  rw [document, tables_reverse, blocks, List.filter_append, List.filter_append, List.map_append,
    List.map_append, filter_named, filter_named, filter_named]

/-- The lock file as it is read back: its parts in order. -/
def LockFile.sorted (lock : LockFile) : LockFile where
  version := lock.version
  depsHash := lock.depsHash
  packages := sortedPackages lock.packages
  buildDependencies := sortedPackages lock.buildDependencies
  remotes := sortedRemotes lock.remotes

/-- The document of a lock file has the lock file's types. -/
theorem rawLockFile_document (lock : LockFile) :
    ∃ raw, rawLockFile (document lock) = some raw ∧ raw.version = some lock.version ∧
      raw.depsHash = some lock.depsHash ∧
      raw.package.getD [] = (sortedPackages lock.packages).map rawPackage ∧
      raw.buildDependency.getD [] = (sortedPackages lock.buildDependencies).map rawPackage ∧
      raw.remote.getD [] = sortedRemotes lock.remotes := by
  obtain ⟨package, hpackage, hpackages⟩ := optionalRows_eq
    rawLockedPackage_rows (document lock) "package" (sortedPackages lock.packages) rfl (by rw [tables_blocks]; simp)
  obtain ⟨build, hbuild, hbuilds⟩ := optionalRows_eq
    rawLockedPackage_rows (document lock) "build-dependency" (sortedPackages lock.buildDependencies) rfl (by rw [tables_blocks]; simp)
  obtain ⟨remote, hremote, hremotes⟩ := optionalRows_eq
    rawLockedRemote_rows (document lock) "remote" (sortedRemotes lock.remotes) rfl (by rw [tables_blocks]; simp)
  rw [List.map_id'] at hremotes
  refine ⟨⟨some lock.version, some lock.depsHash, package, build, remote⟩, ?_, rfl, rfl, hpackages,
    hbuilds, hremotes⟩
  have hversion : asU32 (.integer lock.version.toNat) = some lock.version := by
    rw [asU32, if_pos lock.version.toNat_lt, UInt32.ofNat_toNat]
  have hraw : rawLockFile (document lock) =
      ((asU32 (.integer lock.version.toNat)).map some).bind fun version =>
        (optionalRows rawLockedPackage (document lock) "package").bind fun package =>
          (optionalRows rawLockedPackage (document lock) "build-dependency").bind fun build =>
            (optionalRows rawLockedRemote (document lock) "remote").bind fun remote =>
              some ⟨version, some lock.depsHash, package, build, remote⟩ := by rfl
  rw [hraw, hversion, hpackage, hbuild, hremote]
  rfl

theorem fromStr_of_document {toml : TomlParser} {text : Text} {lock : LockFile}
    (hparse : toml.parse text = .ok (document lock)) (hversion : lock.version = 1) :
    LockFile.fromStr toml text = .ok lock.sorted := by
  obtain ⟨raw, hraw, hrawVersion, hdepsHash, hpackages, hbuild, hremotes⟩ :=
    rawLockFile_document lock
  have hparseRaw : parseRaw toml text = .ok raw := by
    rw [parseRaw, hparse]
    simp only [hraw]
  have hconvert (packages : List LockedPackage) :
      (packages.map rawPackage).mapM convertLockedPackage = .ok packages := by
    have hcomp : convertLockedPackage ∘ rawPackage = fun pkg => pure pkg :=
      funext convert_rawPackage
    rw [List.mapM_map, hcomp, List.mapM_pure, List.map_id']
    rfl
  have hcheck : checkVersion lock.version = .ok () := by
    rw [checkVersion, if_neg (by simp [hversion])]
  unfold LockFile.fromStr
  rw [hparseRaw]
  simp only [hrawVersion, hdepsHash, hpackages, hbuild, hremotes, hconvert, required, hcheck,
    bind, Except.bind, pure, Except.pure]
  rfl

end Reading

section Claim

/-- The same lock file up to the order of its packages, build dependencies and remotes. -/
structure Same (lock lock' : LockFile) : Prop where
  version : lock.version = lock'.version
  depsHash : lock.depsHash = lock'.depsHash
  packages : lock.packages.Perm lock'.packages
  buildDependencies : lock.buildDependencies.Perm lock'.buildDependencies
  remotes : lock.remotes.Perm lock'.remotes

/-- A lock file is read back from its text, up to order. -/
def RoundTrips (t : CharTable) (toml : TomlParser) (lock : LockFile) : Prop :=
  ∃ lock', LockFile.fromStr toml (lock.toToml t) = .ok lock' ∧ Same lock lock'

/-- No two packages have one id and version, and no two remotes one url and extent. -/
structure DistinctKeys (lock : LockFile) : Prop where
  packages : (lock.packages.map fun pkg => (pkg.id, pkg.version)).Nodup
  buildDependencies : (lock.buildDependencies.map fun pkg => (pkg.id, pkg.version)).Nodup
  remotes : (lock.remotes.map fun remote => (remote.url, remote.extent)).Nodup

theorem same_sorted (lock : LockFile) : Same lock lock.sorted :=
  ⟨rfl, rfl, (List.mergeSort_perm _ _).symm, (List.mergeSort_perm _ _).symm,
    (List.mergeSort_perm _ _).symm⟩

theorem roundTrips_iff {t : CharTable} {toml : TomlParser} (htoml : toml.Conforms)
    {lock : LockFile} (hversion : lock.version = 1) :
    RoundTrips t toml lock ↔ lock.Readable t := by
  have hread := read_toToml t lock
  constructor
  · rintro ⟨lock', hok, _⟩
    by_contra hnot
    obtain ⟨message, herror⟩ := htoml.refuses _ (hread.2 hnot)
    rw [LockFile.fromStr, parseRaw, herror] at hok
    cases hok
  · intro hreadable
    have hparse := htoml.accepts _ _ (hread.1 hreadable)
    exact ⟨lock.sorted, fromStr_of_document hparse hversion, same_sorted lock⟩

section Order

variable {β : Type} {cmp : β → β → Ordering} [Std.TransCmp cmp]

theorem sorted_mergeSort (items : List β) :
    (items.mergeSort fun a b => (cmp a b).isLE).Pairwise fun a b => (cmp a b).isLE = true := by
  apply List.pairwise_mergeSort
  · intro a b c hab hbc
    exact Std.TransCmp.isLE_trans hab hbc
  · intro a b
    by_cases hab : (cmp a b).isLE = true
    · simp [hab]
    · have hgt : cmp b a = .lt := Std.OrientedCmp.lt_of_not_isLE hab
      simp [hgt]

/-- Sorting forgets the order of items no two of which compare equal. -/
theorem mergeSort_eq_of_perm (cmp : β → β → Ordering) [Std.TransCmp cmp] {items items' : List β}
    (hperm : items.Perm items')
    (hdistinct : items.Pairwise fun a b => cmp a b ≠ .eq) :
    (items.mergeSort fun a b => (cmp a b).isLE) = items'.mergeSort fun a b => (cmp a b).isLE := by
  have hboth := (List.mergeSort_perm items fun a b => (cmp a b).isLE).trans
    (hperm.trans (List.mergeSort_perm items' fun a b => (cmp a b).isLE).symm)
  apply hboth.eq_of_pairwise _ (sorted_mergeSort items) (sorted_mergeSort items')
  intro a b ha hb hab hba
  by_contra hne
  have : Std.Symm fun a b => cmp a b ≠ .eq :=
    ⟨fun a b h heq => h (Std.OrientedCmp.eq_symm heq)⟩
  have hmem : a ∈ items ∧ b ∈ items :=
    ⟨(List.mergeSort_perm items _).mem_iff.mp ha,
      hperm.mem_iff.mpr ((List.mergeSort_perm items' _).mem_iff.mp hb)⟩
  exact hdistinct.forall hmem.1 hmem.2 hne (Std.OrientedCmp.isLE_antisymm hab hba)

end Order

theorem sortedPackages_eq {packages packages' : List LockedPackage}
    (hperm : packages.Perm packages')
    (hdistinct : (packages.map fun pkg => (pkg.id, pkg.version)).Nodup) :
    sortedPackages packages = sortedPackages packages' := by
  apply mergeSort_eq_of_perm
    (compareLex (compareOn LockedPackage.id) (compareOn LockedPackage.version)) hperm
  apply (List.pairwise_map.mp hdistinct).imp
  intro a b hne heq
  rw [compareLex_eq_eq] at heq
  exact hne (Prod.ext (Std.LawfulEqOrd.eq_of_compare heq.1) (Std.LawfulEqOrd.eq_of_compare heq.2))

theorem sortedRemotes_eq {remotes remotes' : List LockedRemote} (hperm : remotes.Perm remotes')
    (hdistinct : (remotes.map fun remote => (remote.url, remote.extent)).Nodup) :
    sortedRemotes remotes = sortedRemotes remotes' := by
  apply mergeSort_eq_of_perm
    (compareLex (compareOn LockedRemote.url) (compareOn LockedRemote.extent)) hperm
  apply (List.pairwise_map.mp hdistinct).imp
  intro a b hne heq
  rw [compareLex_eq_eq] at heq
  exact hne (Prod.ext (Std.LawfulEqOrd.eq_of_compare heq.1) (Std.LawfulEqOrd.eq_of_compare heq.2))

/-- A lock file is read back up to order exactly where no string has a NUL or a character
that Rust's debug form writes by its code; its text does not tell the order of parts whose
sort keys differ. -/
theorem lockFile_round_trips (t : CharTable) (toml : TomlParser) (htoml : toml.Conforms)
    (lock : LockFile) (hversion : lock.version = 1) :
    (RoundTrips t toml lock ↔ lock.Readable t) ∧
      ∀ lock', Same lock lock' → DistinctKeys lock → lock'.toToml t = lock.toToml t := by
  refine ⟨roundTrips_iff htoml hversion, ?_⟩
  intro lock' hsame hdistinct
  unfold LockFile.toToml
  rw [hsame.version, hsame.depsHash, sortedPackages_eq hsame.packages hdistinct.packages,
    sortedPackages_eq hsame.buildDependencies hdistinct.buildDependencies,
    sortedRemotes_eq hsame.remotes hdistinct.remotes]

section Samples

/-- A table that escapes what is not ASCII. -/
def asciiTable : CharTable where
  unicode c := c.toNat < 0x20 ∨ 0x7f ≤ c.toNat
  control c h := by
    simp only [decide_eq_true_eq]
    omega
  printable c hle hlt := by
    simp only [decide_eq_false_iff_not]
    omega

def orMessage : Except Stop Document → Except Text Document
  | .ok doc => .ok doc
  | .error _ => .error "not read".toList

/-- A parser of what is described of TOML, and of nothing else. -/
def plainParser : TomlParser where
  parse text := orMessage (read text)
  mismatch _ := "other types".toList

theorem plainParser_conforms : plainParser.Conforms where
  accepts text doc h := by
    change orMessage (read text) = .ok doc
    rw [h]
    rfl
  refuses text h := by
    refine ⟨"not read".toList, ?_⟩
    change orMessage (read text) = _
    rw [h]
    rfl

/-- One package, whose world path is `path`. -/
def worldLock (path : Text) : LockFile where
  version := 1
  depsHash := "sha256:9f8e".toList
  packages := [{
    id := "docs:regex".toList
    version := "0.1.2".toList
    resolvedRef := none
    integrity := some "sha256:a1b2".toList
    dev := true
    world := ⟨[("wasi:cli/command".toList, path)], by simp [keys]⟩
    deps := ["docs:utils@0.3.0".toList] }]
  buildDependencies := []
  remotes := [⟨"https://example.com/m".toList, some 4096, "sha256:aa".toList⟩]

theorem lockFile_round_trips_worldLock :
    RoundTrips asciiTable plainParser (worldLock "src/a \"b\"\t.wado".toList) :=
  (lockFile_round_trips asciiTable plainParser plainParser_conforms _ rfl).1.mpr
    (by decide)

/-- A world path with an escape character is written as TOML does not read it. -/
theorem lockFile_round_trips_wrong :
    ¬ RoundTrips asciiTable plainParser (worldLock ['s', 'r', 'c', '/', Char.ofNat 0x1b]) := by
  intro h
  have hreadable := (roundTrips_iff plainParser_conforms rfl).mp h
  have hbad := hreadable ['s', 'r', 'c', '/', Char.ofNat 0x1b] (by decide) (Char.ofNat 0x1b)
    (by simp)
  exact absurd hbad (by decide)

end Samples

end Claim

end Wado.Manifest
