import Mathlib.Data.List.Dedup
import Mathlib.Data.List.Sort
import PortRag.Basic
import PortRag.Foundation.FileLocks
import PortRag.Foundation.Trace

set_option autoImplicit false

/-!
# The shared staging root

`LocalUploadStorage` of `rag/ingest/uploads.py` as several local processes share one staging root:
their start-ups with `_cleanup_abandoned_instances`, the uploads of `upload_document` with `save`,
the jobs of `_ingest_job`, and `erase_owner`.  Each of them is a task, and a task goes on from one
of its system calls to the next while the others do what they do.

The three kinds of lock files are those of the source: `.startup.lock`, `locks/<owner>` and
`instances/<instance>`.  Which locks a task holds, and which one it waits for, follows from where
it is.  A process that dies takes its tasks and their locks with it, and leaves its files behind.
-/

namespace PortRag.Ingest

open PortRag.Foundation

/-- A staged original: `owners/<owner>/<instance>/<name>`. -/
structure Original where
  owner : Uuid
  instanceId : Nat
  name : Nat
  deriving DecidableEq

/-- What stands below the staging root, without the lock files that are never removed. -/
structure StagingFiles where
  owners : List Uuid
  directories : List (Uuid × Nat)
  markers : List Nat
  originals : List Original
  deriving DecidableEq

namespace StagingFiles

/-- `_open_lock` of a marker, with `O_CREAT`. -/
def openMarker (files : StagingFiles) (instanceId : Nat) : StagingFiles :=
  { files with markers := files.markers.insert instanceId }

/-- `unlink` of the marker of an instance. -/
def unlinkMarker (files : StagingFiles) (instanceId : Nat) : StagingFiles :=
  { files with markers := files.markers.filter (fun other => other ≠ instanceId) }

/-- `path.unlink(missing_ok=True)`. -/
def unlink (files : StagingFiles) (x : Original) : StagingFiles :=
  { files with originals := files.originals.filter (fun other => other ≠ x) }

/-- `directory.mkdir(parents=True, exist_ok=True)`, and the new file in it. -/
def create (files : StagingFiles) (x : Original) : StagingFiles :=
  { files with
    owners := files.owners.insert x.owner
    directories := files.directories.insert (x.owner, x.instanceId)
    originals := files.originals ++ [x] }

/-- The instances below an owner's directory. -/
def instancesOf (files : StagingFiles) (owner : Uuid) : List Nat :=
  (files.directories.filter (fun d => d.1 = owner)).map (fun d => d.2)

/-- The names in an instance's directory. -/
def namesIn (files : StagingFiles) (owner : Uuid) (instanceId : Nat) : List Nat :=
  (files.originals.filter (fun x => x.owner = owner ∧ x.instanceId = instanceId)).map
    (fun x => x.name)

/-- `directory.rmdir()` of an instance's directory: an `OSError` while a file is in it. -/
def rmdir (files : StagingFiles) (owner : Uuid) (instanceId : Nat) : Option StagingFiles :=
  if files.namesIn owner instanceId = [] then
    some { files with directories := files.directories.filter (fun d => d ≠ (owner, instanceId)) }
  else none

/-- `directory.rmdir()` of an owner's directory. -/
def rmdirOwner (files : StagingFiles) (owner : Uuid) : Option StagingFiles :=
  if files.instancesOf owner = [] then
    some { files with owners := files.owners.filter (fun other => other ≠ owner) }
  else none

/-- Every original is in its directories, and those are of instances that have been. -/
structure InOrder (files : StagingFiles) (used : List Nat) : Prop where
  placed : ∀ x ∈ files.originals, (x.owner, x.instanceId) ∈ files.directories
  owned : ∀ d ∈ files.directories, d.1 ∈ files.owners
  used : ∀ d ∈ files.directories, d.2 ∈ used

end StagingFiles

/-- The files that are locked. -/
inductive LockFile where
  | startup
  | owner (userId : Uuid)
  | marker (instanceId : Nat)
  deriving DecidableEq

/-! ## Starting -/

/-- The turn of one instance in `_cleanup_abandoned_instances`: the owners and instances listed
before, the instance, the owners left for it, and `complete`. -/
structure Sweep where
  owners : List Uuid
  ids : List Nat
  instanceId : Nat
  left : List Uuid
  complete : Bool
  deriving DecidableEq

/-- How far a process is with its start, up to the end of its life. -/
inductive StartPoint where
  /-- Before `.startup.lock`. -/
  | waiting
  | surveying
  | listing (owners left : List Uuid) (ids : List Nat)
  | sweeping (owners : List Uuid) (ids : List Nat)
  | cleaning (sweep : Sweep)
  /-- In `_remove_upload_directory`, with the names still to unlink. -/
  | removing (sweep : Sweep) (owner : Uuid) (names : List Nat)
  /-- Before the lock on its own marker. -/
  | announcing
  | announced
  | serving
  deriving DecidableEq

/-- The locks that a start holds at each point: the startup lock, that of a stale instance it
sweeps, that of an owner whose files it unlinks, and in the end its own marker. -/
def StartPoint.held (instanceId : Nat) : StartPoint → List (FileLock LockFile)
  | .waiting => []
  | .surveying => [⟨.exclusive, .startup⟩]
  | .listing _ _ _ => [⟨.exclusive, .startup⟩]
  | .sweeping _ _ => [⟨.exclusive, .startup⟩]
  | .cleaning sweep => [⟨.exclusive, .startup⟩, ⟨.exclusive, .marker sweep.instanceId⟩]
  | .removing sweep owner _ =>
      [⟨.exclusive, .startup⟩, ⟨.exclusive, .marker sweep.instanceId⟩, ⟨.exclusive, .owner owner⟩]
  | .announcing => [⟨.exclusive, .startup⟩]
  | .announced => [⟨.exclusive, .startup⟩, ⟨.exclusive, .marker instanceId⟩]
  | .serving => [⟨.exclusive, .marker instanceId⟩]

/-- The lock that a start waits for. -/
def StartPoint.wanted (instanceId : Nat) : StartPoint → Option (FileLock LockFile)
  | .waiting => some ⟨.exclusive, .startup⟩
  | .announcing => some ⟨.exclusive, .marker instanceId⟩
  | _ => none

/-- `sorted` of a set of instances. -/
def sortedIds (ids : List Nat) : List Nat := ids.dedup.insertionSort (· ≤ ·)

/-- The next step of a start: where it goes on, nowhere if it fails, and the files after it. -/
def StartPoint.advance (free : FileLock LockFile → Bool) (instanceId : Nat)
    (files : StagingFiles) : StartPoint → Option (Option StartPoint × StagingFiles)
  | .waiting => if free ⟨.exclusive, .startup⟩ then some (some .surveying, files) else none
  | .surveying => some (some (.listing files.owners files.owners files.markers), files)
  | .listing owners (owner :: left) ids =>
      some (some (.listing owners left (ids ++ files.instancesOf owner)), files)
  | .listing owners [] ids => some (some (.sweeping owners (sortedIds ids)), files)
  | .sweeping owners (id :: ids) =>
      if free ⟨.exclusive, .marker id⟩ then
        some (some (.cleaning ⟨owners, ids, id, owners, true⟩), files.openMarker id)
      else some (some (.sweeping owners ids), files.openMarker id)
  | .sweeping _ [] => some (some .announcing, files.openMarker instanceId)
  | .cleaning ⟨owners, ids, id, owner :: left, complete⟩ =>
      if free ⟨.exclusive, .owner owner⟩ then
        if (owner, id) ∈ files.directories then
          some (some (.removing ⟨owners, ids, id, left, complete⟩ owner (files.namesIn owner id)),
            files)
        else some (some (.cleaning ⟨owners, ids, id, left, complete⟩), files)
      else
        -- waiting for the owner here would invert the lock order of an erasure
        some (some (.cleaning ⟨owners, ids, id, left, false⟩), files)
  | .cleaning ⟨owners, ids, id, [], complete⟩ =>
      some (some (.sweeping owners ids), if complete then files.unlinkMarker id else files)
  | .removing sweep owner (name :: names) =>
      some (some (.removing sweep owner names), files.unlink ⟨owner, sweep.instanceId, name⟩)
  | .removing sweep owner [] =>
      match files.rmdir owner sweep.instanceId with
      | some files => some (some (.cleaning sweep), files)
      | none => some (none, files)
  | .announcing =>
      if free ⟨.exclusive, .marker instanceId⟩ then some (some .announced, files) else none
  | .announced => some (some .serving, files)
  | .serving => none

/-! ## Uploads and jobs -/

/-- How far an upload is: in `save` up to its file, and then in `upload_document`. -/
inductive UploadPoint where
  /-- Before the owner's lock. -/
  | waiting (owner : Uuid)
  | entered (owner : Uuid)
  | admitted (owner : Uuid)
  | writing (x : Original)
  | saved (x : Original)
  /-- After the job was enqueued. -/
  | answering (x : Original)
  deriving DecidableEq

/-- The lock of its owner, while an upload is admitted and written. -/
def UploadPoint.held : UploadPoint → List (FileLock LockFile)
  | .entered owner => [⟨.shared, .owner owner⟩]
  | .admitted owner => [⟨.shared, .owner owner⟩]
  | .writing x => [⟨.shared, .owner x.owner⟩]
  | _ => []

/-- The lock that an upload waits for. -/
def UploadPoint.wanted : UploadPoint → Option (FileLock LockFile)
  | .waiting owner => some ⟨.shared, .owner owner⟩
  | _ => none

/-- The file that an upload has opened. -/
def UploadPoint.original : UploadPoint → Option Original
  | .writing x => some x
  | .saved x => some x
  | .answering x => some x
  | _ => none

/-- The next step of an upload, other than `create` and `enqueue`. -/
def UploadPoint.advance (free : FileLock LockFile → Bool) (active : Uuid → Bool)
    (files : StagingFiles) : UploadPoint → Option (Option UploadPoint × StagingFiles)
  | .waiting owner =>
      if free ⟨.shared, .owner owner⟩ then some (some (.entered owner), files) else none
  | .entered owner => some (if active owner then some (.admitted owner) else none, files)
  | .admitted _ => none
  | .writing x => some (if active x.owner then (some (.saved x), files) else (none, files.unlink x))
  | .saved _ => none
  | .answering x => some (none, if active x.owner then files else files.unlink x)

/-- How far a job is. -/
inductive JobPoint where
  /-- In the queue, or asleep before its next attempt. -/
  | queued (x : Original)
  /-- Before the owner's lock. -/
  | waiting (x : Original)
  | ingesting (x : Original)
  /-- After the lock, before the original is unlinked. -/
  | ingested (x : Original)
  deriving DecidableEq

/-- The lock of its owner, while a job is ingested. -/
def JobPoint.held : JobPoint → List (FileLock LockFile)
  | .ingesting x => [⟨.shared, .owner x.owner⟩]
  | _ => []

/-- The lock that a job waits for. -/
def JobPoint.wanted : JobPoint → Option (FileLock LockFile)
  | .waiting x => some ⟨.shared, .owner x.owner⟩
  | _ => none

/-- The staged original of a job. -/
def JobPoint.original : JobPoint → Original
  | .queued x => x
  | .waiting x => x
  | .ingesting x => x
  | .ingested x => x

/-- The next step of a job. -/
def JobPoint.advance (free : FileLock LockFile → Bool) (files : StagingFiles) :
    JobPoint → Option (Option JobPoint × StagingFiles)
  | .queued x => some (some (.waiting x), files)
  | .waiting x =>
      if free ⟨.shared, .owner x.owner⟩ then some (some (.ingesting x), files) else none
  | .ingesting x => some (some (.ingested x), files)
  | .ingested x => some (none, files.unlink x)

/-! ## Erasing -/

/-- How far `erase_owner` is. -/
inductive ErasurePoint where
  /-- Before the owner's lock: the readers drain. -/
  | waiting (owner : Uuid)
  /-- With the owner's lock, before `.startup.lock`. -/
  | drained (owner : Uuid)
  | inspecting (owner : Uuid)
  | unlinking (owner : Uuid) (ids : List Nat)
  /-- In `_remove_upload_directory`, with the names still to unlink. -/
  | emptying (owner : Uuid) (instanceId : Nat) (names ids : List Nat)
  | erased (owner : Uuid)
  deriving DecidableEq

/-- The locks that an erasure holds: that of the owner from the drain on, and the startup lock while
it unlinks. -/
def ErasurePoint.held : ErasurePoint → List (FileLock LockFile)
  | .waiting _ => []
  | .drained owner => [⟨.exclusive, .owner owner⟩]
  | .inspecting owner => [⟨.exclusive, .owner owner⟩, ⟨.exclusive, .startup⟩]
  | .unlinking owner _ => [⟨.exclusive, .owner owner⟩, ⟨.exclusive, .startup⟩]
  | .emptying owner _ _ _ => [⟨.exclusive, .owner owner⟩, ⟨.exclusive, .startup⟩]
  | .erased _ => []

/-- The lock that an erasure waits for. -/
def ErasurePoint.wanted : ErasurePoint → Option (FileLock LockFile)
  | .waiting owner => some ⟨.exclusive, .owner owner⟩
  | .drained _ => some ⟨.exclusive, .startup⟩
  | _ => none

/-- The next step of an erasure. -/
def ErasurePoint.advance (free : FileLock LockFile → Bool) (files : StagingFiles) :
    ErasurePoint → Option (Option ErasurePoint × StagingFiles)
  | .waiting owner =>
      if free ⟨.exclusive, .owner owner⟩ then some (some (.drained owner), files) else none
  | .drained owner =>
      if free ⟨.exclusive, .startup⟩ then some (some (.inspecting owner), files) else none
  | .inspecting owner =>
      if owner ∈ files.owners then some (some (.unlinking owner (files.instancesOf owner)), files)
      else some (some (.erased owner), files)
  | .unlinking owner (id :: ids) =>
      if (owner, id) ∈ files.directories then
        some (some (.emptying owner id (files.namesIn owner id) ids), files)
      else some (some (.unlinking owner ids), files)
  | .unlinking owner [] =>
      match files.rmdirOwner owner with
      | some files => some (some (.erased owner), files)
      | none => some (none, files)
  | .emptying owner id (name :: names) ids =>
      some (some (.emptying owner id names ids), files.unlink ⟨owner, id, name⟩)
  | .emptying owner id [] ids =>
      match files.rmdir owner id with
      | some files => some (some (.unlinking owner ids), files)
      | none => some (none, files)
  | .erased _ => none

/-! ## The root and its tasks -/

/-- Where a task is. -/
inductive Point where
  | start (p : StartPoint)
  | upload (p : UploadPoint)
  | job (p : JobPoint)
  | erasure (p : ErasurePoint)
  deriving DecidableEq

namespace Point

/-- The locks that a task holds. -/
def held (instanceId : Nat) : Point → List (FileLock LockFile)
  | .start p => p.held instanceId
  | .upload p => p.held
  | .job p => p.held
  | .erasure p => p.held

/-- The lock that a task waits for. -/
def wanted (instanceId : Nat) : Point → Option (FileLock LockFile)
  | .start p => p.wanted instanceId
  | .upload p => p.wanted
  | .job p => p.wanted
  | .erasure p => p.wanted

/-- The original a task is in charge of. -/
def original : Point → Option Original
  | .upload p => p.original
  | .job p => some p.original
  | _ => none

/-- The task is its process, which starts or serves, and no request or job of it. -/
def isProcess : Point → Bool
  | .start _ => true
  | _ => false

end Point

/-- A task of a process; the process has the name of its instance. -/
structure StagingTask where
  id : Nat
  instanceId : Nat
  point : Point
  deriving DecidableEq

/-- The locks of `flock`, one open file for each lock of a task. -/
def stagingLocks : Locking StagingTask LockFile where
  held t := t.point.held t.instanceId
  wanted t := t.point.wanted t.instanceId

/-- What a task of a process can do. -/
inductive Action where
  /-- It goes on with its next step. -/
  | advance
  /-- `save` opens its new file. -/
  | create (name : Nat)
  /-- `RetryableIngestError`: the original is retained for another attempt. -/
  | retry
  /-- It fails or ends, and unlinks its original. -/
  | discard
  /-- It fails or is cancelled, and unlinks nothing. -/
  | leave
  deriving DecidableEq

/-- The staging root: its files, the tasks of all processes at it, and the instances so far. -/
structure StagingRoot where
  files : StagingFiles
  tasks : Foundation.Table Nat StagingTask (·.id)
  /-- The instance ids made up so far: `uuid4` does not repeat itself. -/
  used : List Nat

/-- What happens at the staging root. -/
inductive StagingEvent where
  /-- A process starts. -/
  | start (id instanceId : Nat)
  /-- A request calls `save`. -/
  | save (id instanceId : Nat) (userId : Uuid)
  /-- A request calls `erase_owner`. -/
  | erase (id instanceId : Nat) (userId : Uuid)
  /-- An upload enqueues its job. -/
  | enqueue (id job : Nat)
  /-- A task does its next step. -/
  | act (id : Nat) (action : Action)
  /-- A process dies. -/
  | crash (instanceId : Nat)
  /-- `close`, after the requests and jobs of the process have ended. -/
  | close (instanceId : Nat)
  deriving DecidableEq

namespace StagingRoot

/-- No other task is in the way of the lock. -/
def free (s : StagingRoot) (id : Nat) (lock : FileLock LockFile) : Bool :=
  stagingLocks.free s.tasks id lock

/-- The process serves: it has started, and holds the lock on its marker. -/
def serves (s : StagingRoot) (instanceId : Nat) : Bool :=
  s.tasks.rows.any (fun t => t.instanceId = instanceId ∧ t.point = .start .serving)

/-- What an action of a task comes to: where the task goes on, nowhere if it ends, and the files
after it. -/
def act (active : Uuid → Bool) (s : StagingRoot) (t : StagingTask) :
    Action → Option (Option Point × StagingFiles)
  | .advance =>
      match t.point with
      | .start p =>
          (p.advance (s.free t.id) t.instanceId s.files).map (fun m => (m.1.map .start, m.2))
      | .upload p => (p.advance (s.free t.id) active s.files).map (fun m => (m.1.map .upload, m.2))
      | .job p => (p.advance (s.free t.id) s.files).map (fun m => (m.1.map .job, m.2))
      | .erasure p => (p.advance (s.free t.id) s.files).map (fun m => (m.1.map .erasure, m.2))
  | .create name =>
      match t.point with
      | .upload (.admitted owner) =>
          if (⟨owner, t.instanceId, name⟩ : Original) ∈ s.files.originals then none
          else
            some (some (.upload (.writing ⟨owner, t.instanceId, name⟩)),
              s.files.create ⟨owner, t.instanceId, name⟩)
      | _ => none
  | .retry =>
      match t.point with
      | .job (.ingesting x) => some (some (.job (.queued x)), s.files)
      | _ => none
  | .discard =>
      match t.point with
      -- a job unlinks its original after it has let its lock go
      | .job (.ingesting _) => none
      | point => point.original.map (fun x => (none, s.files.unlink x))
  | .leave => if t.point = .start .serving then none else some (none, s.files)

/-- A new task, under a number that no task has. -/
def spawn (s : StagingRoot) (t : StagingTask) : Option StagingRoot :=
  if s.tasks.find? t.id = none then some { s with tasks := s.tasks.set t } else none

/-- A task has acted: it goes on at `next`, or ends. -/
def goOn (s : StagingRoot) (t : StagingTask) (next : Option Point) (files : StagingFiles) :
    StagingRoot :=
  { s with
    files := files
    tasks := match next with
      | some p => s.tasks.set { t with point := p }
      | none => s.tasks.keep (fun other => other.id ≠ t.id) }

/-- The end of a process, with all its tasks. -/
def quit (s : StagingRoot) (instanceId : Nat) : StagingRoot :=
  { s with tasks := s.tasks.keep (fun t => t.instanceId ≠ instanceId) }

/-- One step at the staging root.  The admission checks of the step let in whom `active` says. -/
def step (active : Uuid → Bool) (s : StagingRoot) : StagingEvent → Option StagingRoot
  | .start id instanceId =>
      if instanceId ∈ s.used then none
      else { s with used := s.used ++ [instanceId] }.spawn ⟨id, instanceId, .start .waiting⟩
  | .save id instanceId userId =>
      if s.serves instanceId ∧ active userId then
        s.spawn ⟨id, instanceId, .upload (.waiting userId)⟩
      else none
  | .erase id instanceId userId =>
      if s.serves instanceId then s.spawn ⟨id, instanceId, .erasure (.waiting userId)⟩ else none
  | .enqueue id job =>
      match s.tasks.find? id with
      | some ⟨_, instanceId, .upload (.saved x)⟩ =>
          if active x.owner then
            { s with tasks := s.tasks.set ⟨id, instanceId, .upload (.answering x)⟩ }.spawn
              ⟨job, instanceId, .job (.queued x)⟩
          else none
      | _ => none
  | .act id action =>
      match s.tasks.find? id with
      | some t => (s.act active t action).map (fun m => s.goOn t m.1 m.2)
      | none => none
  | .crash instanceId => some (s.quit instanceId)
  | .close instanceId =>
      if s.serves instanceId ∧
          ∀ t ∈ s.tasks.rows, t.instanceId = instanceId → t.point = .start .serving then
        some (s.quit instanceId)
      else none

/-- A step under any admission checks. -/
def StepTo (s : StagingRoot) (e : StagingEvent) (_ : Unit) (s' : StagingRoot) : Prop :=
  ∃ active, s.step active e = some s'

/-- Before the first process starts; earlier ones may have left their files behind. -/
def Initial (s : StagingRoot) : Prop := s.tasks = .empty ∧ s.files.InOrder s.used

end StagingRoot

/-! ## The locks of a step -/

section Locks

variable {free : FileLock LockFile → Bool} {active : Uuid → Bool} {instanceId : Nat}
  {files files' : StagingFiles}

/-- A start goes on with the locks it has, and with none that was not free. -/
theorem StartPoint.held_advance {p q : StartPoint}
    (h : p.advance free instanceId files = some (some q, files')) :
    ∀ lock ∈ q.held instanceId, lock ∈ p.held instanceId ∨ free lock = true := by
  revert h
  fun_cases StartPoint.advance free instanceId files p
  all_goals
    intro h
    cases h
    try simp [StartPoint.held, *]

theorem UploadPoint.held_advance {p q : UploadPoint}
    (h : p.advance free active files = some (some q, files')) :
    ∀ lock ∈ q.held, lock ∈ p.held ∨ free lock = true := by
  cases p with
  | waiting owner =>
      obtain ⟨hfree, hq⟩ := Option.ite_none_right_eq_some.mp h
      cases hq
      simp [held, hfree]
  | entered owner =>
      rw [advance] at h
      split at h
      · cases h
        simp [held]
      · cases h
  | admitted owner => cases h
  | writing x =>
      rw [advance] at h
      split at h
      · cases h
        simp [held]
      · cases h
  | saved x => cases h
  | answering x => cases h

theorem JobPoint.held_advance {p q : JobPoint}
    (h : p.advance free files = some (some q, files')) :
    ∀ lock ∈ q.held, lock ∈ p.held ∨ free lock = true := by
  cases p with
  | waiting x =>
      obtain ⟨hfree, hq⟩ := Option.ite_none_right_eq_some.mp h
      cases hq
      simp [held, hfree]
  | _ =>
      cases h
      try simp [held]

theorem ErasurePoint.held_advance {p q : ErasurePoint}
    (h : p.advance free files = some (some q, files')) :
    ∀ lock ∈ q.held, lock ∈ p.held ∨ free lock = true := by
  revert h
  fun_cases ErasurePoint.advance free files p
  all_goals
    intro h
    cases h
    try simp [ErasurePoint.held, *]

end Locks

/-! ## The files of a step -/

namespace StagingFiles

section Order

variable {files files' : StagingFiles} {used : List Nat}

theorem InOrder.mono {used' : List Nat} (h : files.InOrder used) (hused : used ⊆ used') :
    files.InOrder used' :=
  ⟨h.placed, h.owned, fun d hd => hused (h.used d hd)⟩

theorem mem_unlink {x y : Original} :
    y ∈ (files.unlink x).originals ↔ y ∈ files.originals ∧ y ≠ x := by
  rw [unlink, List.mem_filter, decide_eq_true_eq]

theorem InOrder.unlink (h : files.InOrder used) (x : Original) : (files.unlink x).InOrder used :=
  ⟨fun y hy => h.placed y (mem_unlink.mp hy).1, h.owned, h.used⟩

theorem InOrder.unlinkMarker (h : files.InOrder used) (instanceId : Nat) :
    (files.unlinkMarker instanceId).InOrder used :=
  ⟨h.placed, h.owned, h.used⟩

theorem InOrder.openMarker (h : files.InOrder used) (instanceId : Nat) :
    (files.openMarker instanceId).InOrder used :=
  ⟨h.placed, h.owned, h.used⟩

theorem InOrder.create (h : files.InOrder used) {x : Original} (hx : x.instanceId ∈ used) :
    (files.create x).InOrder used where
  placed := by
    intro y hy
    rcases List.mem_append.mp hy with hy | hy
    · exact List.mem_insert_of_mem (h.placed y hy)
    · rw [List.mem_singleton.mp hy]
      exact List.mem_insert_self
  owned := by
    intro d hd
    rcases List.mem_insert_iff.mp hd with rfl | hd
    · exact List.mem_insert_self
    · exact List.mem_insert_of_mem (h.owned d hd)
  used := by
    intro d hd
    rcases List.mem_insert_iff.mp hd with rfl | hd
    · exact hx
    · exact h.used d hd

theorem mem_namesIn {owner : Uuid} {instanceId name : Nat} :
    name ∈ files.namesIn owner instanceId ↔ ⟨owner, instanceId, name⟩ ∈ files.originals := by
  unfold namesIn
  rw [List.mem_map]
  constructor
  · rintro ⟨x, hx, rfl⟩
    obtain ⟨hmem, hwhere⟩ := List.mem_filter.mp hx
    simp only [decide_eq_true_eq] at hwhere
    obtain ⟨rfl, rfl⟩ := hwhere
    exact hmem
  · intro hx
    refine ⟨_, List.mem_filter.mpr ⟨hx, ?_⟩, rfl⟩
    simp

theorem mem_instancesOf {owner : Uuid} {instanceId : Nat} :
    instanceId ∈ files.instancesOf owner ↔ (owner, instanceId) ∈ files.directories := by
  unfold instancesOf
  rw [List.mem_map]
  constructor
  · rintro ⟨d, hd, rfl⟩
    obtain ⟨hd, howner⟩ := List.mem_filter.mp hd
    rw [decide_eq_true_eq] at howner
    rw [← howner]
    exact hd
  · intro hd
    exact ⟨_, List.mem_filter.mpr ⟨hd, by simp⟩, rfl⟩

/-- A directory is removed only when it is empty. -/
theorem rmdir_eq_some {owner : Uuid} {instanceId : Nat}
    (h : files.rmdir owner instanceId = some files') :
    (∀ x ∈ files.originals, (x.owner, x.instanceId) ≠ (owner, instanceId)) ∧
      files' = { files with
        directories := files.directories.filter (fun d => d ≠ (owner, instanceId)) } := by
  obtain ⟨hempty, heq⟩ := Option.ite_none_right_eq_some.mp h
  refine ⟨?_, (Option.some.inj heq).symm⟩
  rintro ⟨o, i, name⟩ hx heq
  cases heq
  have hname := mem_namesIn.mpr hx
  rw [hempty] at hname
  exact absurd hname List.not_mem_nil

theorem InOrder.rmdir {owner : Uuid} {instanceId : Nat} (h : files.InOrder used)
    (hrmdir : files.rmdir owner instanceId = some files') : files'.InOrder used := by
  obtain ⟨hempty, rfl⟩ := rmdir_eq_some hrmdir
  refine ⟨fun x hx => ?_, fun d hd => h.owned d (List.mem_of_mem_filter hd),
    fun d hd => h.used d (List.mem_of_mem_filter hd)⟩
  exact List.mem_filter.mpr ⟨h.placed x hx, decide_eq_true (hempty x hx)⟩

theorem rmdirOwner_eq_some {owner : Uuid} (h : files.rmdirOwner owner = some files') :
    (∀ d ∈ files.directories, d.1 ≠ owner) ∧
      files' = { files with owners := files.owners.filter (fun other => other ≠ owner) } := by
  obtain ⟨hempty, heq⟩ := Option.ite_none_right_eq_some.mp h
  refine ⟨?_, (Option.some.inj heq).symm⟩
  rintro ⟨o, i⟩ hd rfl
  have hid := mem_instancesOf.mpr hd
  rw [hempty] at hid
  exact absurd hid List.not_mem_nil

theorem InOrder.rmdirOwner {owner : Uuid} (h : files.InOrder used)
    (hrmdir : files.rmdirOwner owner = some files') : files'.InOrder used := by
  obtain ⟨hempty, rfl⟩ := rmdirOwner_eq_some hrmdir
  refine ⟨h.placed, fun d hd => ?_, h.used⟩
  exact List.mem_filter.mpr ⟨h.owned d hd, decide_eq_true (hempty d hd)⟩

end Order

end StagingFiles

section Files

variable {free : FileLock LockFile → Bool} {active : Uuid → Bool} {instanceId : Nat}
  {files files' : StagingFiles} {used : List Nat}

theorem StartPoint.inOrder_advance {p : StartPoint} {q : Option StartPoint}
    (h : p.advance free instanceId files = some (q, files')) (hfiles : files.InOrder used) :
    files'.InOrder used := by
  revert h
  fun_cases StartPoint.advance free instanceId files p
  all_goals
    intro h
    cases h <;> first
      | exact hfiles
      | exact hfiles.openMarker _
      | exact hfiles.unlink _
      | exact hfiles.rmdir ‹_›
      | (split; exacts [hfiles.unlinkMarker _, hfiles])

theorem UploadPoint.inOrder_advance {p : UploadPoint} {q : Option UploadPoint}
    (h : p.advance free active files = some (q, files')) (hfiles : files.InOrder used) :
    files'.InOrder used := by
  cases p with
  | waiting owner =>
      obtain ⟨-, hq⟩ := Option.ite_none_right_eq_some.mp h
      cases hq
      exact hfiles
  | entered owner =>
      cases h
      exact hfiles
  | admitted owner => cases h
  | writing x =>
      rw [advance] at h
      split at h
      · cases h
        exact hfiles
      · cases h
        exact hfiles.unlink x
  | saved x => cases h
  | answering x =>
      cases h
      split
      · exact hfiles
      · exact hfiles.unlink x

theorem JobPoint.inOrder_advance {p : JobPoint} {q : Option JobPoint}
    (h : p.advance free files = some (q, files')) (hfiles : files.InOrder used) :
    files'.InOrder used := by
  cases p with
  | waiting x =>
      obtain ⟨-, hq⟩ := Option.ite_none_right_eq_some.mp h
      cases hq
      exact hfiles
  | ingested x =>
      cases h
      exact hfiles.unlink x
  | _ =>
      cases h
      exact hfiles

theorem ErasurePoint.inOrder_advance {p : ErasurePoint} {q : Option ErasurePoint}
    (h : p.advance free files = some (q, files')) (hfiles : files.InOrder used) :
    files'.InOrder used := by
  revert h
  fun_cases ErasurePoint.advance free files p
  all_goals
    intro h
    cases h <;> first
      | exact hfiles
      | exact hfiles.unlink _
      | exact hfiles.rmdir ‹_›
      | exact hfiles.rmdirOwner ‹_›

/-! ### What is deleted and what is new -/

theorem eq_of_unlink {x y : Original} (hx : x ∈ files.originals)
    (hgone : x ∉ (files.unlink y).originals) : x = y := by
  by_contra hne
  exact hgone (StagingFiles.mem_unlink.mpr ⟨hx, hne⟩)

theorem originals_rmdir {owner : Uuid} {id : Nat} (h : files.rmdir owner id = some files') :
    files'.originals = files.originals := by
  rw [(StagingFiles.rmdir_eq_some h).2]

theorem originals_rmdirOwner {owner : Uuid} (h : files.rmdirOwner owner = some files') :
    files'.originals = files.originals := by
  rw [(StagingFiles.rmdirOwner_eq_some h).2]

theorem directories_rmdir {owner : Uuid} {id : Nat} (h : files.rmdir owner id = some files') :
    files'.directories ⊆ files.directories := by
  rw [(StagingFiles.rmdir_eq_some h).2]
  exact fun _ hd => List.mem_of_mem_filter hd

theorem directories_rmdirOwner {owner : Uuid} (h : files.rmdirOwner owner = some files') :
    files'.directories ⊆ files.directories := by
  rw [(StagingFiles.rmdirOwner_eq_some h).2]
  exact fun _ hd => hd

/-- Only `save` makes directories. -/
theorem StartPoint.directories_advance {p : StartPoint} {q : Option StartPoint}
    (h : p.advance free instanceId files = some (q, files')) :
    files'.directories ⊆ files.directories := by
  revert h
  fun_cases StartPoint.advance free instanceId files p
  all_goals
    intro h
    cases h <;> first
      | exact fun _ hd => hd
      | exact directories_rmdir ‹_›
      | (split <;> exact fun _ hd => hd)

theorem UploadPoint.directories_advance {p : UploadPoint} {q : Option UploadPoint}
    (h : p.advance free active files = some (q, files')) :
    files'.directories ⊆ files.directories := by
  cases p with
  | waiting owner =>
      obtain ⟨-, hq⟩ := Option.ite_none_right_eq_some.mp h
      cases hq
      exact fun _ hd => hd
  | entered owner =>
      cases h
      exact fun _ hd => hd
  | admitted owner => cases h
  | writing x =>
      rw [advance] at h
      split at h
      · cases h
        exact fun _ hd => hd
      · cases h
        exact fun _ hd => hd
  | saved x => cases h
  | answering x =>
      cases h
      split <;> exact fun _ hd => hd

theorem JobPoint.directories_advance {p : JobPoint} {q : Option JobPoint}
    (h : p.advance free files = some (q, files')) :
    files'.directories ⊆ files.directories := by
  cases p with
  | waiting x =>
      obtain ⟨-, hq⟩ := Option.ite_none_right_eq_some.mp h
      cases hq
      exact fun _ hd => hd
  | _ =>
      cases h
      exact fun _ hd => hd

theorem ErasurePoint.directories_advance {p : ErasurePoint} {q : Option ErasurePoint}
    (h : p.advance free files = some (q, files')) :
    files'.directories ⊆ files.directories := by
  revert h
  fun_cases ErasurePoint.advance free files p
  all_goals
    intro h
    cases h <;> first
      | exact fun _ hd => hd
      | exact directories_rmdir ‹_›
      | exact directories_rmdirOwner ‹_›

/-- A start deletes originals of the directory it removes, one after the other. -/
theorem StartPoint.originals_advance {p : StartPoint} {q : Option StartPoint}
    (h : p.advance free instanceId files = some (q, files')) :
    files'.originals = files.originals ∨
      ∃ sweep owner name names, p = .removing sweep owner (name :: names) ∧
        files' = files.unlink ⟨owner, sweep.instanceId, name⟩ := by
  revert h
  fun_cases StartPoint.advance free instanceId files p
  all_goals
    intro h
    cases h <;> first
      | exact .inl rfl
      | exact .inr ⟨_, _, _, _, rfl, rfl⟩
      | exact .inl (originals_rmdir ‹_›)
      | (split <;> exact .inl rfl)

/-- So does an erasure. -/
theorem ErasurePoint.originals_advance {p : ErasurePoint} {q : Option ErasurePoint}
    (h : p.advance free files = some (q, files')) :
    files'.originals = files.originals ∨
      ∃ owner id name names ids, p = .emptying owner id (name :: names) ids ∧
        files' = files.unlink ⟨owner, id, name⟩ := by
  revert h
  fun_cases ErasurePoint.advance free files p
  all_goals
    intro h
    cases h <;> first
      | exact .inl rfl
      | exact .inr ⟨_, _, _, _, _, rfl, rfl⟩
      | exact .inl (originals_rmdir ‹_›)
      | exact .inl (originals_rmdirOwner ‹_›)

/-- An upload deletes no original but its own. -/
theorem UploadPoint.originals_advance {p : UploadPoint} {q : Option UploadPoint}
    (h : p.advance free active files = some (q, files')) :
    files'.originals = files.originals ∨
      ∃ x, p.original = some x ∧ files' = files.unlink x := by
  cases p with
  | waiting owner =>
      obtain ⟨-, hq⟩ := Option.ite_none_right_eq_some.mp h
      cases hq
      exact .inl rfl
  | entered owner =>
      cases h
      exact .inl rfl
  | admitted owner => cases h
  | writing x =>
      rw [advance] at h
      split at h
      · cases h
        exact .inl rfl
      · cases h
        exact .inr ⟨x, rfl, rfl⟩
  | saved x => cases h
  | answering x =>
      cases h
      split
      · exact .inl rfl
      · exact .inr ⟨x, rfl, rfl⟩

theorem JobPoint.originals_advance {p : JobPoint} {q : Option JobPoint}
    (h : p.advance free files = some (q, files')) :
    files'.originals = files.originals ∨ files' = files.unlink p.original := by
  cases p with
  | waiting x =>
      obtain ⟨-, hq⟩ := Option.ite_none_right_eq_some.mp h
      cases hq
      exact .inl rfl
  | ingested x =>
      cases h
      exact .inr rfl
  | _ =>
      cases h
      exact .inl rfl

end Files

namespace StagingRoot

/-! ## What a step does -/

section Steps

variable {active : Uuid → Bool} {s s' : StagingRoot}

/-- A step is the start of a process, of a request or of a job, an action of a task, or the end
of a process. -/
inductive Stepped (active : Uuid → Bool) (s : StagingRoot) : StagingEvent → StagingRoot → Prop where
  | started {id instanceId : Nat} (hunused : instanceId ∉ s.used)
      (hfresh : s.tasks.find? id = none) :
      Stepped active s (.start id instanceId)
        { s with
          used := s.used ++ [instanceId]
          tasks := s.tasks.set ⟨id, instanceId, .start .waiting⟩ }
  | called {e : StagingEvent} {id instanceId : Nat} {userId : Uuid} {point : Point}
      (hpoint : (e = .save id instanceId userId ∧ point = .upload (.waiting userId) ∧
          active userId = true) ∨
        (e = .erase id instanceId userId ∧ point = .erasure (.waiting userId)))
      (hserves : s.serves instanceId = true) (hfresh : s.tasks.find? id = none) :
      Stepped active s e { s with tasks := s.tasks.set ⟨id, instanceId, point⟩ }
  | queued {t : StagingTask} {x : Original} {job : Nat} (ht : t ∈ s.tasks.rows)
      (hsaved : t.point = .upload (.saved x)) (hactive : active x.owner = true)
      (hfresh : (s.tasks.set { t with point := .upload (.answering x) }).find? job = none) :
      Stepped active s (.enqueue t.id job)
        { s with
          tasks := (s.tasks.set { t with point := .upload (.answering x) }).set
            ⟨job, t.instanceId, .job (.queued x)⟩ }
  | acted {t : StagingTask} {action : Action} {next : Option Point} {files : StagingFiles}
      (ht : t ∈ s.tasks.rows) (hact : s.act active t action = some (next, files)) :
      Stepped active s (.act t.id action) (s.goOn t next files)
  | quitted {e : StagingEvent} {instanceId : Nat} : Stepped active s e (s.quit instanceId)

theorem spawn_eq_some {t : StagingTask} (h : s.spawn t = some s') :
    s.tasks.find? t.id = none ∧ s' = { s with tasks := s.tasks.set t } := by
  unfold spawn at h
  split at h
  · next hfresh =>
      cases h
      exact ⟨hfresh, rfl⟩
  · cases h

theorem serves_iff {instanceId : Nat} : s.serves instanceId = true ↔
    ∃ m ∈ s.tasks.rows, m.instanceId = instanceId ∧ m.point = .start .serving := by
  unfold serves
  rw [List.any_eq_true]
  simp only [decide_eq_true_eq]

/-- What a step at the staging root can do: one case for each event, with the locks that it has
found free. -/
theorem stepped {e : StagingEvent} (h : s.step active e = some s') : Stepped active s e s' := by
  cases e with
  | start id instanceId =>
      rw [step] at h
      split at h
      · cases h
      · next hunused =>
          obtain ⟨hfresh, rfl⟩ := spawn_eq_some h
          exact .started hunused hfresh
  | save id instanceId userId =>
      rw [step] at h
      split at h
      · next hguard =>
          obtain ⟨hfresh, rfl⟩ := spawn_eq_some h
          exact .called (.inl ⟨rfl, rfl, hguard.2⟩) hguard.1 hfresh
      · cases h
  | erase id instanceId userId =>
      rw [step] at h
      split at h
      · next hserves =>
          obtain ⟨hfresh, rfl⟩ := spawn_eq_some h
          exact .called (.inr ⟨rfl, rfl⟩) hserves hfresh
      · cases h
  | enqueue id job =>
      rw [step] at h
      split at h
      · next instanceId x hfind =>
          split at h
          · next hactive =>
              obtain ⟨hfresh, rfl⟩ := spawn_eq_some h
              obtain ⟨ht, rfl⟩ := Table.find?_eq_some_iff.mp hfind
              exact .queued ht rfl hactive hfresh
          · cases h
      · cases h
  | act id action =>
      rw [step] at h
      split at h
      · next t hfind =>
          obtain ⟨ht, rfl⟩ := Table.find?_eq_some_iff.mp hfind
          obtain ⟨m, hact, rfl⟩ := Option.map_eq_some_iff.mp h
          exact .acted ht hact
      · cases h
  | crash instanceId =>
      cases h
      exact .quitted
  | close instanceId =>
      rw [step] at h
      split at h
      · cases h
        exact .quitted
      · cases h

end Steps

section Acts

variable {active : Uuid → Bool} {s s' : StagingRoot} {t : StagingTask} {action : Action}
  {next : Option Point} {files : StagingFiles}

/-- What an action of a task is: its next step, or one of the other four. -/
inductive Acted (active : Uuid → Bool) (s : StagingRoot) (t : StagingTask) :
    Action → Option Point → StagingFiles → Prop where
  | start {p : StartPoint} {q : Option StartPoint} {files : StagingFiles}
      (hp : t.point = .start p)
      (h : p.advance (s.free t.id) t.instanceId s.files = some (q, files)) :
      Acted active s t .advance (q.map .start) files
  | upload {p : UploadPoint} {q : Option UploadPoint} {files : StagingFiles}
      (hp : t.point = .upload p) (h : p.advance (s.free t.id) active s.files = some (q, files)) :
      Acted active s t .advance (q.map .upload) files
  | job {p : JobPoint} {q : Option JobPoint} {files : StagingFiles} (hp : t.point = .job p)
      (h : p.advance (s.free t.id) s.files = some (q, files)) :
      Acted active s t .advance (q.map .job) files
  | erasure {p : ErasurePoint} {q : Option ErasurePoint} {files : StagingFiles}
      (hp : t.point = .erasure p) (h : p.advance (s.free t.id) s.files = some (q, files)) :
      Acted active s t .advance (q.map .erasure) files
  | created {owner : Uuid} {name : Nat} (hp : t.point = .upload (.admitted owner))
      (hnew : (⟨owner, t.instanceId, name⟩ : Original) ∉ s.files.originals) :
      Acted active s t (.create name) (some (.upload (.writing ⟨owner, t.instanceId, name⟩)))
        (s.files.create ⟨owner, t.instanceId, name⟩)
  | retried {x : Original} (hp : t.point = .job (.ingesting x)) :
      Acted active s t .retry (some (.job (.queued x))) s.files
  | discarded {x : Original} (hx : t.point.original = some x) :
      Acted active s t .discard none (s.files.unlink x)
  | left (hp : t.point ≠ .start .serving) : Acted active s t .leave none s.files

/-- What a step of a task can do: one case for each point of an upload, a job, an erasure or a
start-up. -/
theorem acted (h : s.act active t action = some (next, files)) :
    Acted active s t action next files := by
  cases action with
  | advance =>
      rw [act] at h
      split at h
      all_goals
        next p hp =>
          obtain ⟨⟨q, f⟩, hq, heq⟩ := Option.map_eq_some_iff.mp h
          cases heq
          first
            | exact .start hp hq
            | exact .upload hp hq
            | exact .job hp hq
            | exact .erasure hp hq
  | create name =>
      rw [act] at h
      split at h
      · next owner hp =>
          obtain ⟨hnew, heq⟩ := Option.ite_none_left_eq_some.mp h
          cases heq
          exact .created hp hnew
      · cases h
  | retry =>
      rw [act] at h
      split at h
      · next x hp =>
          cases h
          exact .retried hp
      · cases h
  | discard =>
      rw [act] at h
      split at h
      · cases h
      · obtain ⟨x, hx, heq⟩ := Option.map_eq_some_iff.mp h
        cases heq
        exact .discarded hx
  | leave =>
      rw [act] at h
      obtain ⟨hp, heq⟩ := Option.ite_none_left_eq_some.mp h
      cases heq
      exact .left hp

/-- A task goes on with the locks it has, and with none that was not free. -/
theorem Acted.held {p : Point} (h : Acted active s t action (some p) files) :
    ∀ lock ∈ p.held t.instanceId,
      lock ∈ t.point.held t.instanceId ∨ s.free t.id lock = true := by
  generalize hnext : some p = next at h
  cases h with
  | start hp h =>
      obtain ⟨q, rfl, rfl⟩ := Option.map_eq_some_iff.mp hnext.symm
      rw [hp]
      exact StartPoint.held_advance h
  | upload hp h =>
      obtain ⟨q, rfl, rfl⟩ := Option.map_eq_some_iff.mp hnext.symm
      rw [hp]
      exact UploadPoint.held_advance h
  | job hp h =>
      obtain ⟨q, rfl, rfl⟩ := Option.map_eq_some_iff.mp hnext.symm
      rw [hp]
      exact JobPoint.held_advance h
  | erasure hp h =>
      obtain ⟨q, rfl, rfl⟩ := Option.map_eq_some_iff.mp hnext.symm
      rw [hp]
      exact ErasurePoint.held_advance h
  | created hp hnew =>
      cases hnext
      rw [hp]
      exact fun lock hlock => .inl hlock
  | retried hp =>
      cases hnext
      exact fun lock hlock => absurd hlock List.not_mem_nil
  | discarded hx => cases hnext
  | left hp => cases hnext

/-- A process stays one, and a request or a job too. -/
theorem Acted.isProcess {p : Point} (h : Acted active s t action (some p) files) :
    p.isProcess = t.point.isProcess := by
  generalize hnext : some p = next at h
  cases h with
  | created hp hnew =>
      cases hnext
      rw [hp]
      rfl
  | retried hp =>
      cases hnext
      rw [hp]
      rfl
  | discarded hx => cases hnext
  | left hp => cases hnext
  | _ hp h =>
      obtain ⟨q, rfl, rfl⟩ := Option.map_eq_some_iff.mp hnext.symm
      rw [hp]
      rfl

/-- A process that serves does nothing else. -/
theorem Acted.not_serving (h : Acted active s t action next files) :
    t.point ≠ .start .serving := by
  intro hserving
  cases h with
  | start hp h =>
      cases hserving.symm.trans hp
      cases h
  | discarded hx =>
      rw [hserving] at hx
      cases hx
  | left hp => exact hp hserving
  | created hp => cases hserving.symm.trans hp
  | retried hp => cases hserving.symm.trans hp
  | upload hp => cases hserving.symm.trans hp
  | job hp => cases hserving.symm.trans hp
  | erasure hp => cases hserving.symm.trans hp

/-- What a task of a process that has been leaves is in order. -/
theorem Acted.inOrder {used : List Nat} (h : Acted active s t action next files)
    (hfiles : s.files.InOrder used) (hused : t.instanceId ∈ used) : files.InOrder used := by
  cases h with
  | start hp h => exact StartPoint.inOrder_advance h hfiles
  | upload hp h => exact UploadPoint.inOrder_advance h hfiles
  | job hp h => exact JobPoint.inOrder_advance h hfiles
  | erasure hp h => exact ErasurePoint.inOrder_advance h hfiles
  | created hp hnew => exact hfiles.create hused
  | retried hp => exact hfiles
  | discarded hx => exact hfiles.unlink _
  | left hp => exact hfiles

/-- A new directory is one of an upload that goes on. -/
theorem Acted.directories (h : Acted active s t action next files) :
    ∀ d ∈ files.directories, d ∈ s.files.directories ∨
      (t.point.isProcess = false ∧ d.2 = t.instanceId ∧ next ≠ none) := by
  intro d hd
  cases h with
  | start hp h => exact .inl (StartPoint.directories_advance h hd)
  | upload hp h => exact .inl (UploadPoint.directories_advance h hd)
  | job hp h => exact .inl (JobPoint.directories_advance h hd)
  | erasure hp h => exact .inl (ErasurePoint.directories_advance h hd)
  | created hp hnew =>
      rcases List.mem_insert_iff.mp hd with rfl | hd
      · exact .inr ⟨by rw [hp]; rfl, rfl, by simp⟩
      · exact .inl hd
  | retried hp => exact .inl hd
  | discarded hx => exact .inl hd
  | left hp => exact .inl hd

/-- The task deletes its own original, or one of the directory that it removes. -/
theorem Acted.deleted (h : Acted active s t action next files) {x : Original}
    (hx : x ∈ s.files.originals) (hgone : x ∉ files.originals) :
    t.point.original = some x ∨
    (∃ sweep names, t.point = .start (.removing sweep x.owner names) ∧
      sweep.instanceId = x.instanceId) ∨
    (∃ names ids, t.point = .erasure (.emptying x.owner x.instanceId names ids)) := by
  cases h with
  | start hp h =>
      rcases StartPoint.originals_advance h with hsame | ⟨sweep, owner, name, names, hq, hfiles⟩
      · exact absurd (hsame ▸ hx) hgone
      · obtain rfl := eq_of_unlink hx (hfiles ▸ hgone)
        exact .inr (.inl ⟨sweep, name :: names, hp.trans (congrArg _ hq), rfl⟩)
  | upload hp h =>
      rcases UploadPoint.originals_advance h with hsame | ⟨y, hy, hfiles⟩
      · exact absurd (hsame ▸ hx) hgone
      · obtain rfl := eq_of_unlink hx (hfiles ▸ hgone)
        rw [hp]
        exact .inl hy
  | job hp h =>
      rcases JobPoint.originals_advance h with hsame | hfiles
      · exact absurd (hsame ▸ hx) hgone
      · obtain rfl := eq_of_unlink hx (hfiles ▸ hgone)
        rw [hp]
        exact .inl rfl
  | erasure hp h =>
      rcases ErasurePoint.originals_advance h with hsame | ⟨owner, id, name, names, ids, hq, hfiles⟩
      · exact absurd (hsame ▸ hx) hgone
      · obtain rfl := eq_of_unlink hx (hfiles ▸ hgone)
        exact .inr (.inr ⟨name :: names, ids, hp.trans (congrArg _ hq)⟩)
  | created hp hnew => exact absurd (List.mem_append_left _ hx) hgone
  | retried hp => exact absurd hx hgone
  | discarded hy =>
      obtain rfl := eq_of_unlink hx hgone
      exact .inl hy
  | left hp => exact absurd hx hgone

/-- A new original is that of an upload of its owner, of the process in its path. -/
theorem Acted.brought (h : Acted active s t action next files) {x : Original}
    (hx : x ∈ files.originals) :
    x ∈ s.files.originals ∨
      (t.point = .upload (.admitted x.owner) ∧ x.instanceId = t.instanceId ∧
        next = some (.upload (.writing x))) := by
  cases h with
  | start hp h =>
      rcases StartPoint.originals_advance h with hsame | ⟨_, _, _, _, -, rfl⟩
      · exact .inl (hsame ▸ hx)
      · exact .inl (StagingFiles.mem_unlink.mp hx).1
  | upload hp h =>
      rcases UploadPoint.originals_advance h with hsame | ⟨_, -, rfl⟩
      · exact .inl (hsame ▸ hx)
      · exact .inl (StagingFiles.mem_unlink.mp hx).1
  | job hp h =>
      rcases JobPoint.originals_advance h with hsame | rfl
      · exact .inl (hsame ▸ hx)
      · exact .inl (StagingFiles.mem_unlink.mp hx).1
  | erasure hp h =>
      rcases ErasurePoint.originals_advance h with hsame | ⟨_, _, _, _, _, -, rfl⟩
      · exact .inl (hsame ▸ hx)
      · exact .inl (StagingFiles.mem_unlink.mp hx).1
  | created hp hnew =>
      rcases List.mem_append.mp hx with hx | hx
      · exact .inl hx
      · rw [List.mem_singleton] at hx
        subst hx
        exact .inr ⟨hp, rfl, rfl⟩
  | retried hp => exact .inl hx
  | discarded hy => exact .inl (StagingFiles.mem_unlink.mp hx).1
  | left hp => exact .inl hx

end Acts

end StagingRoot

end PortRag.Ingest
