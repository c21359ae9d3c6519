import AsymmetricCommittee.Orchestration.AnchorRepo

/-! Retries of an anchor. An attempt looks at the working directory to see whether the manifest was already
    anchored, so what it does depends on where the attempts before it stopped: the manifest must not be there unless
    the branch of the remote has it, or the next checkout takes it away. -/

namespace AsymmetricCommittee
namespace AnchorRepo
open OpenTimestamps (Bytes)

variable {C : Type} {g : Git C} {path : String} {data : Bytes} {p q : Place C}

/-! ### What an attempt finds -/

/-- The commit is on the branch of the remote. -/
def OnRemote (g : Git C) (p : Place C) (commit : C) : Prop := ∃ r ∈ p.remote, g.isAncestor commit r = true

/-- An attempt that nothing interrupts returns a commit that is on the remote and contains the manifest. -/
def Survives (g : Git C) (path : String) (data : Bytes) (p : Place C) : Prop :=
  ∃ commit p', (anchor [(path, data)]).exec (answer g) () p = ((.ok [(path, commit)], ()), p') ∧ OnRemote g p' commit ∧
    g.files commit path = some data

/-- The clone has its remote. If the branch is there, it has the manifest, or has no such file and the working
    directory has none, or a tracked one. If not, the working directory has no such file, and adding it changes the
    last commit. -/
def Ready (g : Git C) (path : String) (data : Bytes) (p : Place C) : Prop :=
  (∀ repo ∈ p.disk.repo, repo.origin = true) ∧
    match p.remote with
    | some r => g.files r path = some data ∨
      (g.files r path = none ∧ (p.disk.worktree path = none ∨ ∃ repo ∈ p.disk.repo, (repo.index path).isSome))
    | none => p.disk.worktree path = none ∧
      ∀ repo ∈ p.disk.repo, ∀ h ∈ repo.head, g.files h ≠ Function.update repo.index path (some data)

/-- The places that a sequence of attempts leaves, each stopped after a number of its calls. -/
def afterStops (g : Git C) (path : String) (data : Bytes) (p : Place C) (stops : List Nat) : Place C :=
  stops.foldl (fun p n => Program.after (answer g) n ((anchor [(path, data)]).start ()) p) p

/-! ### The steps of an attempt -/

attribute [local simp] answer

theorem exec_call (c : GitCall C) (p : Place C) : (call c).exec (answer g) () p =
    match answer g c p with
    | (.ok a, p') => ((.ok a, ()), p')
    | (.error e, p') => ((.error e, ()), p') := by
  rw [call, Act.exec_bind, Act.exec_ask]
  rcases answer g c p with ⟨e | a, p'⟩
  · rfl
  · rfl

theorem call_ok {c : GitCall C} {a : c.Result} (h : answer g c p = (.ok a, q)) :
    (call c).exec (answer g) () p = ((.ok a, ()), q) := by rw [exec_call, h]

theorem call_error {c : GitCall C} {e : AnchorError} (h : answer g c p = (.error e, q)) :
    (call c).exec (answer g) () p = ((.error e, ()), q) := by rw [exec_call, h]

/-- The repository of the clone, which is made if there is none. -/
def cloned (p : Place C) : Repo C := p.disk.repo.getD ⟨true, none, fun _ => none, none⟩

theorem ensureClone_exec (hg : g.Documented) (p : Place C) :
    ensureClone.exec (answer g) () p = ((.ok (), ()), { p with disk := { p.disk with repo := some (cloned p) } }) := by
  have hclone : (cloneUnless p.disk.repo.isSome).exec (answer g) () p =
      ((.ok (), ()), { p with disk := { p.disk with repo := some (cloned p) } }) := by
    cases hrepo : p.disk.repo with
    | some repo =>
      have hcloned : cloned p = repo := by rw [cloned, hrepo, Option.getD_some]
      have hpresent : (some repo).isSome = true := rfl
      rw [cloneUnless, hcloned, if_pos hpresent, ← hrepo]
      rfl
    | none =>
      have hcloned : cloned p = ⟨true, none, fun _ => none, none⟩ := by rw [cloned, hrepo, Option.getD_none]
      have hinit : answer g .init p =
          (.ok (), { p with disk := { p.disk with repo := some ⟨false, none, fun _ => none, none⟩ } }) := by
        rw [answer, hg.init_new p.disk hrepo]
        rfl
      have hremote := hg.remoteAdd_origin { p.disk with repo := some ⟨false, none, fun _ => none, none⟩ } _ rfl rfl
      rw [cloneUnless, Option.isSome_none, if_neg Bool.false_ne_true, newClone, Act.exec_bind_ok (call_ok hinit), hcloned]
      refine call_ok ?_
      rw [answer, hremote]
      rfl
  rw [ensureClone, Act.exec_bind_ok (call_ok rfl), Act.exec_bind_ok hclone, Act.exec_bind_ok (call_ok rfl),
    Act.exec_bind_ok (call_ok rfl)]
  exact call_ok rfl

theorem cloned_origin (horigin : ∀ repo ∈ p.disk.repo, repo.origin = true) : (cloned p).origin = true := by
  rw [cloned]
  cases hrepo : p.disk.repo with
  | none => rfl
  | some repo => exact horigin repo hrepo

/-- A clone without its remote cannot list the branch. -/
theorem sync_error (hg : g.Documented) {repo : Repo C} (hrepo : p.disk.repo = some repo) (horigin : repo.origin = false) :
    ∃ q, sync.exec (answer g) () p = ((.error .unavailable, ()), q) := by
  have hlist : answer g .lsRemote { p with disk := { p.disk with repo := some (cloned p) } } =
      (.error .unavailable, { p with disk := { p.disk with repo := some (cloned p) } }) := by
    rw [answer, if_neg]
    rw [cloned, hrepo, Option.getD_some, Option.any_some, horigin]
    exact Bool.false_ne_true
  exact ⟨_, by rw [sync, Act.exec_bind_ok (ensureClone_exec hg p), Act.exec_bind_error (call_error hlist)]⟩

theorem lsRemote_answer (horigin : (cloned p).origin = true) :
    answer g .lsRemote { p with disk := { p.disk with repo := some (cloned p) } } =
      (.ok p.remote, { p with disk := { p.disk with repo := some (cloned p) } }) := by
  rw [answer, if_pos]
  exact horigin

/-- Without the branch nothing is checked out. -/
theorem sync_absent (hg : g.Documented) (horigin : (cloned p).origin = true) (hremote : p.remote = none) :
    sync.exec (answer g) () p = ((.ok false, ()), { p with disk := { p.disk with repo := some (cloned p) } }) := by
  rw [sync, Act.exec_bind_ok (ensureClone_exec hg p), Act.exec_bind_ok (call_ok (lsRemote_answer horigin)), hremote]
  rfl

/-- With the branch, the clone is at its commit, and an untracked file stays. -/
theorem sync_present (hg : g.Documented) (horigin : (cloned p).origin = true) {r : C} (hremote : p.remote = some r) :
    ∃ q repo, sync.exec (answer g) () p = ((.ok true, ()), q) ∧ q.remote = some r ∧ q.disk.repo = some repo ∧
      repo.origin = true ∧ repo.head = some r ∧ repo.index = g.files r ∧
      ∀ path, q.disk.worktree path =
        if (g.files r path).isSome ∨ ((cloned p).index path).isSome then g.files r path else p.disk.worktree path := by
  obtain ⟨disk, remote⟩ := p
  obtain rfl : remote = some r := hremote
  let p : Place C := ⟨disk, some r⟩
  have hfetch : answer g .fetch { p with disk := { p.disk with repo := some (cloned p) } } =
      (.ok (), { p with disk := { p.disk with repo := some { cloned p with fetchHead := some r } } }) := by
    show onDisk _ (g.fetch r { p.disk with repo := some (cloned p) }) = _
    rw [hg.fetch_head r _ (cloned p) rfl]
    rfl
  obtain ⟨d, hd, hrepo, hworktree⟩ := hg.checkout_head r
    { p.disk with repo := some { cloned p with fetchHead := some r } } { cloned p with fetchHead := some r } rfl rfl
  have hcheckout : answer g .checkout
      { p with disk := { p.disk with repo := some { cloned p with fetchHead := some r } } } =
      (.ok (), { p with disk := d }) := by
    rw [answer, hd]
    rfl
  refine ⟨{ p with disk := d }, _, ?_, rfl, hrepo, horigin, rfl, rfl, hworktree⟩
  rw [sync, Act.exec_bind_ok (ensureClone_exec hg p), Act.exec_bind_ok (call_ok (lsRemote_answer horigin))]
  refine (Act.exec_bind_ok (call_ok hfetch)).trans ?_
  exact Act.exec_bind_ok (call_ok hcheckout)

/-! ### What follows -/

theorem settle_eq : (settle [(path, data)] : Steps C (List (String × C))) =
    (place [] (path, data) >>= fun fresh => publish fresh >>= fun head =>
      locate fresh head (path, data) >>= fun commit => pure [commit]) := by
  rw [settle, List.foldlM_cons, bind_assoc]
  refine congrArg _ (funext fun fresh => ?_)
  rw [List.foldlM_nil, pure_bind]
  refine congrArg _ (funext fun head => ?_)
  rw [List.mapM_cons]
  refine congrArg _ (funext fun commit => ?_)
  rw [List.mapM_nil, pure_bind]

theorem settle_contradicts {stored : Bytes} (hstored : q.disk.worktree path = some stored) (hne : stored ≠ data) :
    (settle [(path, data)]).exec (answer g) () q = ((.error (.binding .manifestContradicts), ()), q) := by
  have hplace : (place [] (path, data)).exec (answer g) () q = ((.error (.binding .manifestContradicts), ()), q) := by
    have hexists : answer g (.exists_ path) q = (.ok true, q) := by rw [answer, hstored, Option.isSome_some]
    have hread : answer g (.readBytes path) q = (.ok stored, q) := by rw [answer, hstored]
    rw [place, Act.exec_bind_ok (call_ok hexists), if_pos rfl, Act.exec_bind_ok (call_ok hread), if_pos hne]
    rfl
  rw [settle_eq, Act.exec_bind_error hplace]

/-- A file that is there is taken for anchored. -/
theorem settle_same (hstored : q.disk.worktree path = some data) :
    (settle [(path, data)]).exec (answer g) () q =
      match g.log path q.disk with
      | none => ((.error .unavailable, ()), q)
      | some none => ((.error (.binding .manifestUncommitted), ()), q)
      | some (some commit) => ((.ok [(path, commit)], ()), q) := by
  have hplace : (place [] (path, data)).exec (answer g) () q = ((.ok [], ()), q) := by
    have hexists : answer g (.exists_ path) q = (.ok true, q) := by rw [answer, hstored, Option.isSome_some]
    have hread : answer g (.readBytes path) q = (.ok data, q) := by rw [answer, hstored]
    rw [place, Act.exec_bind_ok (call_ok hexists), if_pos rfl, Act.exec_bind_ok (call_ok hread), if_neg (fun h => h rfl)]
    rfl
  have hpublish : (publish []).exec (answer g) () q = ((.ok none, ()), q) := rfl
  rw [settle_eq, Act.exec_bind_ok hplace, Act.exec_bind_ok hpublish, locate]
  cases hlog : g.log path q.disk with
  | none =>
    have hanswer : answer g (.log path) q = (.error .unavailable, q) := by rw [answer, hlog]
    exact Act.exec_bind_error (Act.exec_bind_error (call_error hanswer))
  | some commit =>
    have hanswer : answer g (.log path) q = (.ok commit, q) := by rw [answer, hlog]
    cases commit with
    | none => exact Act.exec_bind_error (Act.exec_bind_ok (call_ok hanswer))
    | some commit => exact Act.exec_bind_ok (Act.exec_bind_ok (call_ok hanswer))

/-- The place after the manifest is written. -/
def written (path : String) (data : Bytes) (q : Place C) : Place C :=
  { q with disk := { q.disk with worktree := Function.update q.disk.worktree path (some data) } }

/-- The repository with the manifest in the index. -/
def withManifest (path : String) (data : Bytes) (repo : Repo C) : Repo C :=
  { repo with index := Function.update repo.index path (some data) }

/-- The place after it is added. -/
def staged (path : String) (data : Bytes) (repo : Repo C) (q : Place C) : Place C :=
  { q with disk := { (written path data q).disk with repo := some (withManifest path data repo) } }

/-- The place after it is committed. -/
def committed (path : String) (data : Bytes) (repo : Repo C) (commit : C) (q : Place C) : Place C :=
  { q with disk := { (written path data q).disk with repo := some { withManifest path data repo with head := some commit } } }

/-- The place after it is pushed. -/
def pushed (path : String) (data : Bytes) (repo : Repo C) (commit : C) (q : Place C) : Place C :=
  { committed path data repo commit q with remote := some commit }

theorem place_new (hworktree : q.disk.worktree path = none) :
    (place [] (path, data)).exec (answer g) () q = ((.ok [path], ()), written path data q) := by
  have hexists : answer g (.exists_ path) q = (.ok false, q) := by rw [answer, hworktree, Option.isSome_none]
  rw [place, Act.exec_bind_ok (call_ok hexists), if_neg Bool.false_ne_true]
  exact Act.exec_bind_ok (call_ok rfl)

theorem add_answer (hg : g.Documented) {repo : Repo C} (hrepo : q.disk.repo = some repo) :
    answer g (.add [path]) (written path data q) = (.ok (), staged path data repo q) := by
  rw [answer, hg.add_one path (written path data q).disk repo data hrepo (Function.update_self ..)]
  rfl

/-- A file that is not there is written, committed and pushed. -/
theorem settle_new (hg : g.Documented) {repo : Repo C} (hworktree : q.disk.worktree path = none)
    (hrepo : q.disk.repo = some repo) (horigin : repo.origin = true)
    (hremote : ∀ r ∈ q.remote, repo.head = some r)
    (hnew : ∀ h ∈ repo.head, g.files h ≠ Function.update repo.index path (some data)) :
    ∃ commit, (settle [(path, data)]).exec (answer g) () q = ((.ok [(path, commit)], ()), pushed path data repo commit q) ∧
      g.files commit = Function.update repo.index path (some data) := by
  have htracked : ∃ path', ((withManifest path data repo).index path').isSome := ⟨path, by simp [withManifest]⟩
  obtain ⟨commit, hcommit, hfiles, hafter⟩ := hg.commit_new (staged path data repo q).disk _ rfl htracked hnew
  have hcommitted : answer g (.commit (commitMessage [path])) (staged path data repo q) =
      (.ok (), committed path data repo commit q) := by
    rw [answer, hcommit]
    rfl
  have hforward : ∀ r ∈ q.remote, g.isAncestor r commit = true := fun r hr => hafter r (hremote r hr)
  have hpush : answer g .push (committed path data repo commit q) = (.ok (), pushed path data repo commit q) := by
    have htaken := hg.push_forward (committed path data repo commit q).disk _ q.remote commit rfl horigin rfl hforward
    have hremote' : (committed path data repo commit q).remote = q.remote := rfl
    rw [answer, hremote', htaken]
    rfl
  have hpublish : (publish [path]).exec (answer g) () (written path data q) =
      ((.ok (some commit), ()), pushed path data repo commit q) := by
    rw [publish, if_neg (List.cons_ne_nil _ _), Act.exec_bind_ok (call_ok (add_answer hg hrepo)),
      Act.exec_bind_ok (call_ok hcommitted)]
    refine (Act.exec_bind_ok (call_ok rfl)).trans ?_
    exact Act.exec_bind_ok (call_ok hpush)
  have hlocate : (locate [path] (some commit) (path, data)).exec (answer g) () (pushed path data repo commit q) =
      ((.ok (path, commit), ()), pushed path data repo commit q) := by
    have hfresh : (some commit).filter (fun _ => path ∈ [path]) = some commit := by simp
    rw [locate, hfresh]
    rfl
  refine ⟨commit, ?_, hfiles⟩
  rw [settle_eq, Act.exec_bind_ok (place_new hworktree), Act.exec_bind_ok hpublish, Act.exec_bind_ok hlocate]
  rfl

/-- Nothing is committed when the last commit has it already. -/
theorem settle_unchanged (hg : g.Documented) {repo : Repo C} {h : C} (hworktree : q.disk.worktree path = none)
    (hrepo : q.disk.repo = some repo) (hhead : repo.head = some h)
    (hsame : g.files h = Function.update repo.index path (some data)) :
    (settle [(path, data)]).exec (answer g) () q = ((.error .unavailable, ()), staged path data repo q) := by
  have hcommit : answer g (.commit (commitMessage [path])) (staged path data repo q) =
      (.error .unavailable, staged path data repo q) := by
    rw [answer, hg.commit_same (staged path data repo q).disk _ h rfl hhead hsame]
    rfl
  have hpublish : (publish [path]).exec (answer g) () (written path data q) =
      ((.error .unavailable, ()), staged path data repo q) := by
    rw [publish, if_neg (List.cons_ne_nil _ _), Act.exec_bind_ok (call_ok (add_answer hg hrepo)),
      Act.exec_bind_error (call_error hcommit)]
  rw [settle_eq, Act.exec_bind_ok (place_new hworktree), Act.exec_bind_error hpublish]

/-! ### When an attempt survives -/

theorem anchor_exec {b : Bool} (hpath : isManifest path = true) (hsync : sync.exec (answer g) () p = ((.ok b, ()), q)) :
    (anchor [(path, data)]).exec (answer g) () p = (settle [(path, data)]).exec (answer g) () q := by
  have hmanifests : ¬ (([(path, data)] : List (String × Bytes)).any fun file => !isManifest file.1) = true := by
    simp [hpath]
  rw [anchor, if_neg hmanifests]
  exact Act.exec_bind_ok hsync

theorem not_survives_of_error {e : AnchorError} (h : (anchor [(path, data)]).exec (answer g) () p = ((.error e, ()), q)) :
    ¬ Survives g path data p := by
  rintro ⟨commit, p', hexec, -⟩
  rw [h] at hexec
  cases hexec

theorem survives_of_exec {commit : C}
    (h : (anchor [(path, data)]).exec (answer g) () p = ((.ok [(path, commit)], ()), q)) :
    Survives g path data p ↔ OnRemote g q commit ∧ g.files commit path = some data := by
  constructor
  · rintro ⟨commit', p', hexec, hsurvives⟩
    rw [h] at hexec
    cases hexec
    exact hsurvives
  · exact fun hsurvives => ⟨commit, q, h, hsurvives⟩

/-- An attempt that finds the file returns what the log says. -/
theorem survives_same (hpath : isManifest path = true) {b : Bool} (hsync : sync.exec (answer g) () p = ((.ok b, ()), q))
    (hstored : q.disk.worktree path = some data) :
    Survives g path data p ↔ ∃ commit, g.log path q.disk = some (some commit) ∧ OnRemote g q commit ∧
      g.files commit path = some data := by
  have hexec := (anchor_exec hpath hsync).trans (settle_same hstored)
  cases hlog : g.log path q.disk with
  | none =>
    rw [hlog] at hexec
    exact iff_of_false (not_survives_of_error hexec) (by simp)
  | some commit =>
    rw [hlog] at hexec
    cases commit with
    | none => exact iff_of_false (not_survives_of_error hexec) (by simp)
    | some commit =>
      rw [survives_of_exec hexec]
      simp

theorem survives_absent (hg : g.Documented) (hpath : isManifest path = true)
    (horigin : ∀ repo ∈ p.disk.repo, repo.origin = true) (hremote : p.remote = none) :
    Survives g path data p ↔ p.disk.worktree path = none ∧
      ∀ repo ∈ p.disk.repo, ∀ h ∈ repo.head, g.files h ≠ Function.update repo.index path (some data) := by
  let q : Place C := { p with disk := { p.disk with repo := some (cloned p) } }
  have hsync : sync.exec (answer g) () p = ((.ok false, ()), q) := sync_absent hg (cloned_origin horigin) hremote
  have hcloned : (∀ repo ∈ p.disk.repo, ∀ h ∈ repo.head, g.files h ≠ Function.update repo.index path (some data)) ↔
      ∀ h ∈ (cloned p).head, g.files h ≠ Function.update (cloned p).index path (some data) := by
    rw [cloned]
    cases p.disk.repo <;> simp
  rw [hcloned]
  cases hworktree : p.disk.worktree path with
  | some stored =>
    -- nothing is on the remote, and the file stays
    refine iff_of_false ?_ (fun h => absurd h.1 (Option.some_ne_none stored))
    by_cases hsame : stored = data
    · subst hsame
      rw [survives_same hpath hsync hworktree]
      rintro ⟨commit, -, ⟨r, hr, -⟩, -⟩
      have hnone : r ∈ p.remote := hr
      rw [hremote] at hnone
      cases hnone
    · exact not_survives_of_error ((anchor_exec hpath hsync).trans (settle_contradicts hworktree hsame))
  | none =>
    rw [and_iff_right rfl]
    by_cases hnew : ∀ h ∈ (cloned p).head, g.files h ≠ Function.update (cloned p).index path (some data)
    · refine iff_of_true ?_ hnew
      have hbranch : ∀ r ∈ p.remote, (cloned p).head = some r := by
        rw [hremote]
        nofun
      obtain ⟨commit, hexec, hfiles⟩ :=
        @settle_new C g path data q hg (cloned p) hworktree rfl (cloned_origin horigin) hbranch hnew
      refine ⟨commit, _, (anchor_exec hpath hsync).trans hexec, ⟨commit, rfl, hg.ancestor_refl commit⟩, ?_⟩
      rw [hfiles, Function.update_self]
    · refine iff_of_false ?_ hnew
      obtain ⟨h, hhead, hsame⟩ : ∃ h, (cloned p).head = some h ∧
          g.files h = Function.update (cloned p).index path (some data) := by simpa using hnew
      have hexec := @settle_unchanged C g path data q hg (cloned p) h hworktree rfl hhead hsame
      exact not_survives_of_error ((anchor_exec hpath hsync).trans hexec)

theorem survives_present (hg : g.Documented) (hpath : isManifest path = true)
    (horigin : ∀ repo ∈ p.disk.repo, repo.origin = true) {r : C} (hremote : p.remote = some r) :
    Survives g path data p ↔ g.files r path = some data ∨
      (g.files r path = none ∧ (p.disk.worktree path = none ∨ ∃ repo ∈ p.disk.repo, (repo.index path).isSome)) := by
  obtain ⟨q, repo, hsync, hq, hrepo, hrepoOrigin, hhead, hindex, hworktree⟩ :=
    sync_present hg (cloned_origin horigin) hremote
  have htracked : (∃ repo ∈ p.disk.repo, (repo.index path).isSome) ↔ ((cloned p).index path).isSome := by
    rw [cloned]
    cases p.disk.repo <;> simp
  have hnewest : ∀ r' ∈ q.remote, repo.head = some r' := by
    rw [hq]
    rintro r' hr'
    rw [hhead, Option.mem_some.mp hr']
  rw [htracked]
  cases hfiles : g.files r path with
  | some stored =>
    have hstored : q.disk.worktree path = some stored := by
      rw [hworktree, hfiles]
      exact if_pos (Or.inl rfl)
    by_cases hsame : stored = data
    · subst hsame
      refine iff_of_true ?_ (Or.inl rfl)
      obtain ⟨commit, hlog⟩ := hg.log_tracked path q.disk repo r hrepo hhead (by rw [hfiles]; rfl)
      obtain ⟨hancestor, hcontent⟩ := hg.log_last path q.disk repo r commit hrepo hhead hlog
      exact (survives_same hpath hsync hstored).mpr ⟨commit, hlog, ⟨r, hq, hancestor⟩, hcontent.trans hfiles⟩
    · refine iff_of_false ?_ (by simp [hsame])
      exact not_survives_of_error ((anchor_exec hpath hsync).trans (settle_contradicts hstored hsame))
  | none =>
    have hfound : q.disk.worktree path = if ((cloned p).index path).isSome then none else p.disk.worktree path := by
      rw [hworktree, hfiles]
      simp
    cases hq' : q.disk.worktree path with
    | none =>
      refine iff_of_true ?_ (Or.inr ⟨rfl, ?_⟩)
      · have hnew : ∀ h ∈ repo.head, g.files h ≠ Function.update repo.index path (some data) := by
          rw [hhead, hindex]
          rintro h hh heq
          rw [← Option.mem_some.mp hh] at heq
          have hpathEq := congrFun heq path
          rw [hfiles, Function.update_self] at hpathEq
          cases hpathEq
        obtain ⟨commit, hexec, hcommit⟩ := settle_new hg hq' hrepo hrepoOrigin hnewest hnew
        refine ⟨commit, _, (anchor_exec hpath hsync).trans hexec, ⟨commit, rfl, hg.ancestor_refl commit⟩, ?_⟩
        rw [hcommit, Function.update_self]
      · rw [hq'] at hfound
        split at hfound
        · next htracked => exact Or.inr htracked
        · exact Or.inl hfound.symm
    | some stored =>
      -- an untracked file stays, and no commit of the branch has it
      refine iff_of_false ?_ ?_
      · by_cases hsame : stored = data
        · subst hsame
          rw [survives_same hpath hsync hq']
          rintro ⟨commit, hlog, -, hcontent⟩
          rw [(hg.log_last path q.disk repo r commit hrepo hhead hlog).2, hfiles] at hcontent
          cases hcontent
        · exact not_survives_of_error ((anchor_exec hpath hsync).trans (settle_contradicts hq' hsame))
      · rw [hq'] at hfound
        split at hfound
        · cases hfound
        · next huntracked =>
          rintro (h | ⟨-, h | h⟩)
          · cases h
          · rw [h] at hfound
            cases hfound
          · exact huntracked h

theorem survives_iff (hg : g.Documented) (hpath : isManifest path = true) :
    Survives g path data p ↔ Ready g path data p := by
  by_cases horigin : ∀ repo ∈ p.disk.repo, repo.origin = true
  · rw [Ready, and_iff_right horigin]
    cases hremote : p.remote with
    | none => exact survives_absent hg hpath horigin hremote
    | some r => exact survives_present hg hpath horigin hremote
  · refine iff_of_false ?_ fun h => horigin h.1
    obtain ⟨repo, hrepo, hunset⟩ : ∃ repo, p.disk.repo = some repo ∧ repo.origin = false := by simpa using horigin
    obtain ⟨q, hsync⟩ := sync_error hg hrepo hunset
    have hmanifests : ¬ (([(path, data)] : List (String × Bytes)).any fun file => !isManifest file.1) = true := by
      simp [hpath]
    refine not_survives_of_error (q := q) (e := .unavailable) ?_
    rw [anchor, if_neg hmanifests]
    exact Act.exec_bind_error hsync

/-- After any sequence of attempts, each stopped anywhere, the next one returns a commit that is on the remote and
    contains the manifest exactly when it finds the place ready. -/
theorem anchor_survives_iff (hg : g.Documented) (hpath : isManifest path = true) (p : Place C) (stops : List Nat) :
    Survives g path data (afterStops g path data p stops) ↔ Ready g path data (afterStops g path data p stops) :=
  survives_iff hg hpath

/-! ### Where an attempt can stop -/

/-- An untracked manifest stands in the way of the next attempt. -/
theorem not_ready_written {repo : Repo C} (hrepo : q.disk.repo = some repo) (huntracked : repo.index path = none)
    (habsent : ∀ r ∈ q.remote, g.files r path = none) : ¬ Ready g path data (written path data q) := by
  obtain ⟨⟨disk, worktree⟩, remote⟩ := q
  obtain rfl : disk = some repo := hrepo
  rintro ⟨-, hready⟩
  cases remote with
  | none =>
    have hnone : Function.update worktree path (some data) path = none := hready.1
    rw [Function.update_self] at hnone
    cases hnone
  | some r =>
    obtain hfiles | ⟨-, hnone | ⟨repo', hrepo', htracked⟩⟩ := hready
    · rw [habsent r rfl] at hfiles
      cases hfiles
    · have hnone' : Function.update worktree path (some data) path = none := hnone
      rw [Function.update_self] at hnone'
      cases hnone'
    · cases hrepo'
      rw [huntracked] at htracked
      cases htracked

/-- Once it is in the index the branch of the remote decides. -/
theorem ready_staged_iff {repo : Repo C} (horigin : repo.origin = true)
    (habsent : ∀ r ∈ q.remote, g.files r path = none) : Ready g path data (staged path data repo q) ↔ q.remote.isSome := by
  obtain ⟨disk, remote⟩ := q
  have hset : ∀ repo' ∈ (staged path data repo ⟨disk, remote⟩).disk.repo, repo'.origin = true := by
    rintro repo' hrepo'
    cases hrepo'
    exact horigin
  rw [Ready, and_iff_right hset]
  cases remote with
  | none =>
    refine iff_of_false ?_ Bool.false_ne_true
    rintro ⟨hnone, -⟩
    have hnone' : Function.update disk.worktree path (some data) path = none := hnone
    rw [Function.update_self] at hnone'
    cases hnone'
  | some r =>
    have htracked : ((withManifest path data repo).index path).isSome := by simp [withManifest]
    exact iff_of_true (Or.inr ⟨habsent r rfl, Or.inr ⟨_, rfl, htracked⟩⟩) rfl

/-- A commit that is not pushed changes nothing. -/
theorem ready_committed_iff {repo : Repo C} {commit : C} (horigin : repo.origin = true)
    (habsent : ∀ r ∈ q.remote, g.files r path = none) :
    Ready g path data (committed path data repo commit q) ↔ q.remote.isSome :=
  @ready_staged_iff C g path data q { repo with head := some commit } horigin habsent

theorem ready_pushed {repo : Repo C} {commit : C} (horigin : repo.origin = true) (hfiles : g.files commit path = some data) :
    Ready g path data (pushed path data repo commit q) := by
  refine ⟨?_, Or.inl hfiles⟩
  rintro repo' hrepo'
  cases hrepo'
  exact horigin

/-- The check before a run uses its anchor agrees. -/
theorem isReachable_exec (hg : g.Documented) {repo : Repo C} (hrepo : p.disk.repo = some repo)
    (horigin : repo.origin = true) (commit : C) :
    ∃ b p', (isReachable commit).exec (answer g) () p = ((.ok b, ()), p') ∧ (b = true ↔ OnRemote g p commit) := by
  have hlist : answer g .lsRemote p = (.ok p.remote, p) := by
    rw [answer, if_pos]
    rw [hrepo, Option.any_some, horigin]
  rw [isReachable, Act.exec_bind_ok (call_ok hlist)]
  cases hremote : p.remote with
  | none => exact ⟨false, p, rfl, by simp [OnRemote, hremote]⟩
  | some r =>
    let fetched : Repo C := { repo with fetchHead := some r }
    let q : Place C := { p with disk := { p.disk with repo := some fetched } }
    have hfetch : answer g .fetch p = (.ok (), q) := by
      rw [answer, hremote]
      show onDisk p (g.fetch r p.disk) = _
      rw [hg.fetch_head r _ repo hrepo]
      rfl
    have honRemote : OnRemote g p commit ↔ g.isAncestor commit r = true := by simp [OnRemote, hremote]
    rw [honRemote]
    cases hknown : g.hasCommit commit q.disk with
    | false =>
      have hanswer : answer g (.hasCommit commit) q = (.ok false, q) := by rw [answer, hknown]
      refine ⟨false, q, ?_, ?_⟩
      · refine (Act.exec_bind_ok (call_ok hfetch)).trans ?_
        exact Act.exec_bind_ok (call_ok hanswer)
      · refine iff_of_false Bool.false_ne_true fun hancestor => ?_
        rw [hg.hasCommit_fetched commit r q.disk fetched rfl rfl hancestor] at hknown
        cases hknown
    | true =>
      have hanswer : answer g (.hasCommit commit) q = (.ok true, q) := by rw [answer, hknown]
      refine ⟨g.isAncestor commit r, q, ?_, Iff.rfl⟩
      refine (Act.exec_bind_ok (call_ok hfetch)).trans ?_
      refine (Act.exec_bind_ok (call_ok hanswer)).trans ?_
      exact call_ok rfl

/-! ### A git whose commits are their histories -/

/-- The snapshots of a commit and of those before it, the newest first. -/
abbrev History : Type := List Files

def History.files : History → Files
  | [] => fun _ => none
  | newest :: _ => newest

/-- The last commit that changed a file. -/
def History.log (path : String) : History → Option History
  | [] => none
  | newest :: before => if newest path = History.files before path then History.log path before else some (newest :: before)

theorem History.log_last {path : String} {h c : History} (hlog : h.log path = some c) : c <:+ h ∧ c.files path = h.files path := by
  induction h with
  | nil => cases hlog
  | cons newest before ih =>
    rw [History.log] at hlog
    split at hlog
    · next hsame =>
      obtain ⟨hsuffix, hfiles⟩ := ih hlog
      exact ⟨hsuffix.trans (List.suffix_cons ..), hfiles.trans hsame.symm⟩
    · cases hlog
      exact ⟨List.suffix_rfl, rfl⟩

theorem History.log_tracked {path : String} {h : History} (hfile : (h.files path).isSome) : ∃ c, h.log path = some c := by
  induction h with
  | nil => cases hfile
  | cons newest before ih =>
    rw [History.log]
    split
    · next hsame =>
      refine ih ?_
      rw [← hsame]
      exact hfile
    · exact ⟨_, rfl⟩

open Classical in
/-- The commands on it. -/
noncomputable def historyGit : Git History where
  files := History.files
  isAncestor c h := decide (c <:+ h)
  init d := if d.repo.isSome then some d else some { d with repo := some ⟨false, none, fun _ => none, none⟩ }
  remoteAdd d :=
    match d.repo with
    | none => none
    | some repo => if repo.origin then none else some { d with repo := some { repo with origin := true } }
  fetch c d := d.repo.map fun repo => { d with repo := some { repo with fetchHead := some c } }
  checkout d :=
    match d.repo with
    | none => none
    | some repo => repo.fetchHead.map fun c =>
      ⟨some { repo with head := some c, index := c.files }, fun path =>
        if (c.files path).isSome ∨ (repo.index path).isSome then c.files path else d.worktree path⟩
  add paths d := d.repo.map fun repo =>
    { d with repo := some { repo with index := fun path => if path ∈ paths then d.worktree path else repo.index path } }
  commit d :=
    match d.repo with
    | none => none
    | some repo =>
      match repo.head with
      | none => some { d with repo := some { repo with head := some [repo.index] } }
      | some h =>
        if h.files = repo.index then none else some { d with repo := some { repo with head := some (repo.index :: h) } }
  push d remote :=
    match d.repo.filter (·.origin) with
    | none => none
    | some repo => if ∀ r ∈ remote, ∀ c ∈ repo.head, r <:+ c then repo.head.map some else none
  log path d := (d.repo.bind (·.head)).map (History.log path)
  hasCommit c d := decide (∃ repo ∈ d.repo, (∃ h ∈ repo.fetchHead, c <:+ h) ∨ ∃ h ∈ repo.head, c <:+ h)

theorem isAncestor_iff {c h : History} : historyGit.isAncestor c h = true ↔ c <:+ h := by simp [historyGit]

theorem historyGit_documented : historyGit.Documented where
  ancestor_refl c := isAncestor_iff.mpr List.suffix_rfl
  init_new d hrepo := by simp [historyGit, hrepo]
  remoteAdd_origin d repo hrepo horigin := by simp [historyGit, hrepo, horigin]
  fetch_head c d repo hrepo := by simp [historyGit, hrepo]
  checkout_head c d repo hrepo hfetch := by simp [historyGit, hrepo, hfetch]
  add_one path d repo data hrepo hworktree := by
    have hindex : (fun path' => if path' ∈ [path] then d.worktree path' else repo.index path') =
        Function.update repo.index path (some data) := by
      funext path'
      by_cases heq : path' = path
      · rw [if_pos (List.mem_singleton.mpr heq), heq, hworktree, Function.update_self]
      · rw [if_neg (fun h => heq (List.mem_singleton.mp h)), Function.update_of_ne heq]
    simp only [historyGit, hrepo, Option.map_some, hindex]
  commit_new d repo hrepo _ hnew := by
    cases hhead : repo.head with
    | none => exact ⟨[repo.index], by simp [historyGit, hrepo, hhead], rfl, by simp⟩
    | some h =>
      have hchanged : ¬ h.files = repo.index := hnew h hhead
      refine ⟨repo.index :: h, by simp [historyGit, hrepo, hhead, hchanged], rfl, ?_⟩
      rintro h' hh'
      cases hh'
      exact isAncestor_iff.mpr (List.suffix_cons ..)
  commit_same d repo h hrepo hhead hsame := by
    have hsame' : h.files = repo.index := hsame
    simp [historyGit, hrepo, hhead, hsame']
  push_forward d repo remote c hrepo horigin hhead hforward := by
    have hsuffix : ∀ r ∈ remote, r <:+ c := fun r hr => isAncestor_iff.mp (hforward r hr)
    have hall : ∀ r ∈ remote, ∀ c' ∈ repo.head, r <:+ c' := by
      rw [hhead]
      rintro r hr c' hc'
      rw [← Option.mem_some.mp hc']
      exact hsuffix r hr
    simp only [historyGit, hrepo, Option.filter_some, horigin, if_true, if_pos hall, hhead, Option.map_some]
  log_last path d repo h c hrepo hhead hlog := by
    obtain ⟨hsuffix, hfiles⟩ := History.log_last (by simpa [historyGit, hrepo, hhead] using hlog)
    exact ⟨isAncestor_iff.mpr hsuffix, hfiles⟩
  log_tracked path d repo h hrepo hhead hfile := by
    obtain ⟨c, hc⟩ := History.log_tracked hfile
    exact ⟨c, by simp [historyGit, hrepo, hhead, hc]⟩
  log_unborn path d repo hrepo hhead := by simp [historyGit, hrepo, hhead]
  hasCommit_fetched c r d repo hrepo hfetch hancestor := by
    simp only [historyGit, hrepo, decide_eq_true_eq]
    exact ⟨repo, rfl, Or.inl ⟨r, hfetch, isAncestor_iff.mp hancestor⟩⟩

/-- A new clone of an empty remote. -/
def newPlace : Place History := ⟨⟨none, fun _ => none⟩, none⟩

/-- A new clone of a branch with one file. -/
def startedPlace : Place History :=
  { newPlace with remote := some [Function.update (fun _ => none) "README.md" (some [])] }

def firstManifest : String := "anchors/00000000-0000-0000-0000-000000000001.json"

/-- The first attempt is stopped after its push, and the second repeats it. -/
theorem anchor_survives_push :
    Survives historyGit firstManifest [123, 125] (afterStops historyGit firstManifest [123, 125] newPlace [13]) := by
  refine (anchor_survives_iff historyGit_documented (by decide) newPlace [13]).mpr ?_
  refine ⟨?_, ?_⟩
  · rintro repo hrepo
    obtain rfl := Option.some.inj hrepo
    rfl
  · exact Or.inl rfl

/-- An attempt stopped after it has written the file leaves one that the next finds and has no commit of. One stopped
    before the first push leaves a commit that the next returns and the remote does not have. -/
theorem anchor_lost : historyGit.Documented ∧ isManifest firstManifest = true ∧
    ¬ Survives historyGit firstManifest [123, 125] (afterStops historyGit firstManifest [123, 125] startedPlace [11]) ∧
    ¬ Survives historyGit firstManifest [123, 125] (afterStops historyGit firstManifest [123, 125] newPlace [11]) := by
  have hpath : isManifest firstManifest = true := by decide
  refine ⟨historyGit_documented, hpath, ?_, ?_⟩
  · rw [survives_iff historyGit_documented hpath]
    rintro ⟨-, hready | ⟨-, hnone | ⟨repo, hrepo, htracked⟩⟩⟩
    · cases hready
    · cases hnone
    · obtain rfl := Option.some.inj hrepo
      cases htracked
  · rw [survives_iff historyGit_documented hpath]
    rintro ⟨-, hnone, -⟩
    cases hnone

end AnchorRepo
end AsymmetricCommittee
