import AsymmetricCommittee.Evaluation.Anchoring
import AsymmetricCommittee.Lib.Program

/-! The git remote of the manifests (`GitAnchorRepo` in `orchestration/anchor_adapters.py`): a dedicated clone whose
    branch on the remote receives one file per run. The git commands are a parameter. -/

namespace AsymmetricCommittee
namespace AnchorRepo
open OpenTimestamps (Bytes)

/-! ### Clones -/

/-- Files by path. -/
abbrev Files := String → Option Bytes

/-- What `.git` holds: whether `origin` is configured, the commit of the branch, the index, and `FETCH_HEAD`. `C` are
    the commits, by the names that git prints. -/
structure Repo (C : Type) where
  origin : Bool
  head : Option C
  index : Files
  fetchHead : Option C

/-- The working directory. -/
structure Disk (C : Type) where
  repo : Option (Repo C)
  worktree : Files

/-- The working directory, and the commit of the branch on the remote. -/
structure Place (C : Type) where
  disk : Disk C
  remote : Option C

/-- The commands that are run; none is a nonzero exit. -/
structure Git (C : Type) where
  /-- What a commit contains. -/
  files : C → Files
  isAncestor : C → C → Bool
  init : Disk C → Option (Disk C)
  remoteAdd : Disk C → Option (Disk C)
  /-- `fetch origin` of the branch, which is at this commit. -/
  fetch : C → Disk C → Option (Disk C)
  /-- `checkout -f -B` of the branch at `FETCH_HEAD`. -/
  checkout : Disk C → Option (Disk C)
  add : List String → Disk C → Option (Disk C)
  commit : Disk C → Option (Disk C)
  /-- `push origin HEAD:refs/heads/...` to a branch at this commit. -/
  push : Disk C → Option C → Option (Option C)
  /-- `log -n 1 --format=%H -- path`; no output is none. -/
  log : String → Disk C → Option (Option C)
  /-- `cat-file -e`. -/
  hasCommit : C → Disk C → Bool

/-- What the code relies on. -/
structure Git.Documented {C : Type} (g : Git C) : Prop where
  ancestor_refl : ∀ c, g.isAncestor c c = true
  /-- A new repository has no remote and an empty index. -/
  init_new : ∀ d, d.repo = none → g.init d = some { d with repo := some ⟨false, none, fun _ => none, none⟩ }
  remoteAdd_origin : ∀ d repo, d.repo = some repo → repo.origin = false →
    g.remoteAdd d = some { d with repo := some { repo with origin := true } }
  fetch_head : ∀ c d repo, d.repo = some repo → g.fetch c d = some { d with repo := some { repo with fetchHead := some c } }
  /-- The branch, the index and the tracked files are the commit's afterwards; untracked files that are not in the
      way stay. -/
  checkout_head : ∀ c d repo, d.repo = some repo → repo.fetchHead = some c → ∃ d', g.checkout d = some d' ∧
    d'.repo = some { repo with head := some c, index := g.files c } ∧
    ∀ path, d'.worktree path = if (g.files c path).isSome ∨ (repo.index path).isSome then g.files c path else d.worktree path
  add_one : ∀ path d repo data, d.repo = some repo → d.worktree path = some data →
    g.add [path] d = some { d with repo := some { repo with index := Function.update repo.index path (some data) } }
  /-- The new commit contains the index and comes after the head. -/
  commit_new : ∀ d repo, d.repo = some repo → (∃ path, (repo.index path).isSome) →
    (∀ h ∈ repo.head, g.files h ≠ repo.index) → ∃ c, g.commit d = some { d with repo := some { repo with head := some c } } ∧
      g.files c = repo.index ∧ ∀ h ∈ repo.head, g.isAncestor h c = true
  /-- Nothing to commit. -/
  commit_same : ∀ d repo h, d.repo = some repo → repo.head = some h → g.files h = repo.index → g.commit d = none
  /-- A push that only adds commits is taken. -/
  push_forward : ∀ d repo remote c, d.repo = some repo → repo.origin = true → repo.head = some c →
    (∀ r ∈ remote, g.isAncestor r c = true) → g.push d remote = some (some c)
  /-- The last commit that changed a file, in the history of the branch, has it as the branch has it. -/
  log_last : ∀ path d repo h c, d.repo = some repo → repo.head = some h → g.log path d = some (some c) →
    g.isAncestor c h = true ∧ g.files c path = g.files h path
  log_tracked : ∀ path d repo h, d.repo = some repo → repo.head = some h → (g.files h path).isSome →
    ∃ c, g.log path d = some (some c)
  /-- A branch without commits has no log. -/
  log_unborn : ∀ path d repo, d.repo = some repo → repo.head = none → g.log path d = none
  /-- The commits of a fetched branch are there. -/
  hasCommit_fetched : ∀ c r d repo, d.repo = some repo → repo.fetchHead = some r → g.isAncestor c r = true →
    g.hasCommit c d = true

/-! ### The adapter -/

/-- What the adapter asks of git and of the file system. -/
inductive GitCall (C : Type) where
  | hasRepo
  | init
  | remoteAdd
  | config (key value : String)
  | lsRemote
  | fetch
  | checkout
  | exists_ (path : String)
  | readBytes (path : String)
  | writeBytes (path : String) (data : Bytes)
  | add (paths : List String)
  | commit (message : String)
  | revParseHead
  | push
  | log (path : String)
  | hasCommit (commit : C)
  | mergeBaseIsAncestor (commit head : C)

abbrev GitCall.Result {C : Type} : GitCall C → Type
  | .hasRepo => Bool
  | .lsRemote => Option C
  | .exists_ _ => Bool
  | .readBytes _ => Bytes
  | .revParseHead => C
  | .log _ => Option C
  | .hasCommit _ => Bool
  | .mergeBaseIsAncestor _ _ => Bool
  | _ => Unit

abbrev gitCalls (C : Type) : Interface := ⟨GitCall C, fun c => Except AnchorError c.Result⟩

abbrev Steps (C α : Type) : Type := Act (gitCalls C) Unit AnchorError α

variable {C : Type}

def call (c : GitCall C) : Steps C c.Result := do
  let reply ← Act.ask (I := gitCalls C) c
  match (reply : Except AnchorError c.Result) with
  | .ok a => pure a
  | .error e => throw e

/-- `_MANIFEST`; `#` stands for a hexadecimal digit. -/
def manifestPattern : List Char := "anchors/########-####-####-####-############.json".toList

def isManifest (path : String) : Bool :=
  manifestPattern.length = path.toList.length && (manifestPattern.zip path.toList).all fun x =>
    if x.1 = '#' then ('0' ≤ x.2 && x.2 ≤ '9') || ('a' ≤ x.2 && x.2 ≤ 'f') else x.1 = x.2

/-- A new clone knows its remote only after the second command. -/
def newClone : Steps C Unit := do
  let _ ← call .init
  call .remoteAdd

def cloneUnless (present : Bool) : Steps C Unit := if present = true then pure () else newClone

/-- `_ensure_clone`. -/
def ensureClone : Steps C Unit := do
  let present : Bool ← call .hasRepo
  let _ ← cloneUnless present
  let _ ← call (.config "core.autocrlf" "false")
  let _ ← call (.config "core.safecrlf" "false")
  call (.config "core.attributesFile" "/dev/null")

/-- Fetch the branch and check it out; false when the remote branch does not exist yet. -/
def sync : Steps C Bool := do
  let _ ← ensureClone
  let listed : Option C ← call .lsRemote
  match listed with
  | none => pure false
  | some _ => do
    let _ ← call .fetch
    let _ ← call .checkout
    pure true

/-- A file that is there must be the same; else it is written. -/
def place (fresh : List String) (file : String × Bytes) : Steps C (List String) := do
  let present : Bool ← call (.exists_ file.1)
  if present = true then do
    let stored : Bytes ← call (.readBytes file.1)
    if stored ≠ file.2 then throw (.binding .manifestContradicts) else pure fresh
  else do
    let _ ← call (.writeBytes file.1 file.2)
    pure (fresh ++ [file.1])

def commitMessage (fresh : List String) : String := "anchor: " ++ toString fresh.length ++ " commitment(s)"

/-- Commit and push what was written. -/
def publish (fresh : List String) : Steps C (Option C) :=
  if fresh = [] then pure none
  else do
    let _ ← call (.add fresh)
    let _ ← call (.commit (commitMessage fresh))
    let head : C ← call .revParseHead
    let _ ← call .push
    pure (some head)

/-- The commit of a file: the new one, or the one that introduced it. -/
def locate (fresh : List String) (head : Option C) (file : String × Bytes) : Steps C (String × C) :=
  match head.filter fun _ => file.1 ∈ fresh with
  | some head => pure (file.1, head)
  | none => do
    let log : Option C ← call (.log file.1)
    match log with
    | none => throw (.binding .manifestUncommitted)
    | some commit => pure (file.1, commit)

/-- What follows the sync. -/
def settle (files : List (String × Bytes)) : Steps C (List (String × C)) := do
  let fresh ← files.foldlM place []
  let head ← publish fresh
  files.mapM (locate fresh head)

/-- Commit and push the manifests; the commit of each. -/
def anchor (files : List (String × Bytes)) : Steps C (List (String × C)) :=
  if files.any fun file => !isManifest file.1 then throw .other
  else do
    let _ ← sync
    settle files

/-- True when the commit is an ancestor of the branch head as the remote reports it. -/
def isReachable (commit : C) : Steps C Bool := do
  let listed : Option C ← call .lsRemote
  match listed with
  | none => pure false
  | some head => do
    let _ ← call .fetch
    let known : Bool ← call (.hasCommit commit)
    if known = false then pure false else call (.mergeBaseIsAncestor commit head)

/-! ### Its surroundings -/

/-- The answer of a command that only changes the working directory. -/
def onDisk (p : Place C) : Option (Disk C) → Except AnchorError Unit × Place C
  | none => (.error .unavailable, p)
  | some disk => (.ok (), { p with disk })

/-- How each call is answered while git and the remote can be reached. -/
def answer (g : Git C) : (c : GitCall C) → Place C → Except AnchorError c.Result × Place C
  | .hasRepo, p => (.ok p.disk.repo.isSome, p)
  | .init, p => onDisk p (g.init p.disk)
  | .remoteAdd, p => onDisk p (g.remoteAdd p.disk)
  | .config _ _, p => (.ok (), p)
  | .lsRemote, p =>
    if p.disk.repo.any (·.origin) then (.ok p.remote, p) else (.error .unavailable, p)
  | .fetch, p =>
    match p.remote with
    | none => (.error .unavailable, p)
    | some c => onDisk p (g.fetch c p.disk)
  | .checkout, p => onDisk p (g.checkout p.disk)
  | .exists_ path, p => (.ok (p.disk.worktree path).isSome, p)
  | .readBytes path, p =>
    match p.disk.worktree path with
    | none => (.error .other, p)
    | some data => (.ok data, p)
  | .writeBytes path data, p =>
    (.ok (), { p with disk := { p.disk with worktree := Function.update p.disk.worktree path (some data) } })
  | .add paths, p => onDisk p (g.add paths p.disk)
  | .commit _, p => onDisk p (g.commit p.disk)
  | .revParseHead, p =>
    match p.disk.repo.bind (·.head) with
    | none => (.error .unavailable, p)
    | some head => (.ok head, p)
  | .push, p =>
    match g.push p.disk p.remote with
    | none => (.error .unavailable, p)
    | some remote => (.ok (), { p with remote })
  | .log path, p =>
    match g.log path p.disk with
    | none => (.error .unavailable, p)
    | some commit => (.ok commit, p)
  | .hasCommit commit, p => (.ok (g.hasCommit commit p.disk), p)
  | .mergeBaseIsAncestor commit head, p => (.ok (g.isAncestor commit head), p)

end AnchorRepo
end AsymmetricCommittee
