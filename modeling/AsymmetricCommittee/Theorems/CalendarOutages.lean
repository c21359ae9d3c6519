import AsymmetricCommittee.Theorems.ProofUpgrades

/-! Calendars that fail during an upgrade pass. A pass is run against sources that answer or raise, call by call. An
    exception that is not of a proof ends the pass, and within one proof any exception, or a malformed reply, ends the
    check of it. An anchor that a calendar completes is confirmed exactly when neither happens before it is stored. -/

namespace AsymmetricCommittee
namespace AnchorStage
open OpenTimestamps Anchoring Store

/-! ### The surroundings of a pass -/

/-- What the calendars, the header source and the clock give to the calls of a pass, by the number of the call. -/
structure Sources (Header : Type) where
  fetch : Nat → UUID → String → Bytes → Except AnchorError (Option Bytes)
  header : Nat → Nat → Except AnchorError Header
  clock : Nat → AwareDatetime

/-- The calls so far, and the run tables. -/
structure PassWorld (K V : Type) [Field K] [LinearOrder K] where
  calls : Nat
  db : RunTables K V

section Answers
variable {K V Header : Type} [Field K] [LinearOrder K] (src : Sources Header)

/-- The reply to a call, and the tables then. A pass makes no other calls than these. -/
def Sources.reply : (c : AnchorCall) → PassWorld K V → Except AnchorError (c.Result K Header) × RunTables K V
  | .anchorsAwaitingConfirmation, w => (.ok (Store.anchorsAwaitingConfirmation w.db), w.db)
  | .recordAnchor anchor, w =>
    match upsertAnchor w.db anchor with
    | .ok db => (.ok (), db)
    | .error _ => (.error .other, w.db)
  | .fetch runId uri msg, w => (src.fetch w.calls runId uri msg, w.db)
  | .header height, w => (src.header w.calls height, w.db)
  | .clock, w => (.ok (src.clock w.calls), w.db)
  | _, w => (.error .other, w.db)

def Sources.answer (c : (anchorCalls K Header).Call) (w : PassWorld K V) :
    (anchorCalls K Header).Reply c × PassWorld K V :=
  ((src.reply c w).1, ⟨w.calls + 1, (src.reply c w).2⟩)

end Answers

section Pass
variable {K V Header O : Type} [Field K] [LinearOrder K] [DecidableEq O] (ots : Package O Header) (src : Sources Header)

/-- A pending calendar of the anchor's proof returns, whenever it is asked, a timestamp with a Bitcoin attestation, and
    the attestation verifies against the header of its height. -/
structure Completed (anchor : CommitmentAnchor) (msg : Bytes) (height : Nat) : Prop where
  reply : ∃ stored ∈ anchor.otsProof, ∃ file, loads ots stored = .ok file ∧
    (∃ status, checkBinding ots stored anchor.sha256 = .ok status) ∧
    ∃ uri at_ data fragment, (at_, .pending uri) ∈ ots.allAttestations file.timestamp ∧
      (∀ n, src.fetch n anchor.runId uri at_ = .ok (some data)) ∧ parseFragment ots data at_ = .ok fragment ∧
      (msg, .bitcoin height) ∈ ots.allAttestations fragment
  header : ∃ header, (∀ n, src.header n height = .ok header) ∧
    (ots.verifyAgainstBlockheader height msg header).isSome

/-- The anchor is stored with a proof that has the attestation, and with a confirmation time. -/
def ConfirmedWith (db : RunTables K V) (anchor : CommitmentAnchor) (msg : Bytes) (height : Nat) : Prop :=
  ∃ a ∈ db.commitmentAnchors, a.runId = anchor.runId ∧ a.verifiedAt.isSome ∧
    ∃ proof ∈ a.otsProof, ∃ file, loads ots proof = .ok file ∧ (msg, .bitcoin height) ∈ ots.allAttestations file.timestamp

/-- A call raises something else than that a proof does not bind. -/
def EndsPass : Event (anchorCalls K Header) → Prop
  | ⟨_, .error (.binding _)⟩ => False
  | ⟨_, .error _⟩ => True
  | ⟨_, .ok _⟩ => False

/-- A call raises, or is a calendar's malformed reply. -/
def EndsCheck : Event (anchorCalls K Header) → Prop
  | ⟨.fetch _ _ msg, .ok (some data)⟩ => ∃ defect, parseFragment ots data msg = .error defect
  | ⟨_, .ok _⟩ => False
  | ⟨_, .error _⟩ => True

/-- The calendars of an anchor are asked. -/
abbrev asked (anchor : CommitmentAnchor) (file : DetachedFile O) : Steps K Header (DetachedFile O × Bool) :=
  upgrade ots file fun uri commitment => call (.fetch anchor.runId uri commitment)

/-- The anchors are upgraded one after another. -/
abbrev pass (anchors : List CommitmentAnchor) : Steps K Header UpgradeSummary :=
  anchors.foldlM (upgradeOne ots true) ⟨0, 0, 0, 0⟩

/-- The upgraded proof of the anchor is not too large and reads back. -/
def Fits (w : PassWorld K V) (anchor : CommitmentAnchor) (stored : Bytes) : Prop :=
  ∀ file ∈ (loads ots stored).toOption, ∀ upgraded changed w',
    (asked ots anchor file).exec src.answer () w = ((.ok (upgraded, changed), ()), w') →
    ∀ proof ∈ ots.serialize upgraded, ∃ status, checkBinding ots proof anchor.sha256 = .ok status

/-- Nothing ends the pass before an anchor, and nothing ends the check of the anchor. -/
structure Undisturbed (w : PassWorld K V) (earlier : List CommitmentAnchor) (anchor : CommitmentAnchor) : Prop where
  reached : ∀ event ∈ (pass ots earlier).events src.answer () w, ¬ EndsPass event
  own : ∀ stored ∈ anchor.otsProof, ∀ event ∈ (checkAnchor ots true anchor stored).events src.answer ()
    ((pass ots earlier).exec src.answer () w).2, ¬ EndsCheck ots event
  fits : ∀ stored ∈ anchor.otsProof, Fits ots src ((pass ots earlier).exec src.answer () w).2 anchor stored

/-- What a proof is while replies are merged into it. -/
inductive Merged : DetachedFile O → Prop
  | read {data : Bytes} {file : DetachedFile O} (h : ots.deserialize data = some file) : Merged file
  | merge {file : DetachedFile O} {path : List O} {att : Attestation} {data : Bytes} {fragment : Timestamp O}
      (h : Merged file) (hnode : (file.timestamp.tree.follow path).isSome) (hatt : att.isBitcoin = false)
      (hfragment : parseFragment ots data (ots.messageAt file.timestamp.msg path) = .ok fragment) :
      Merged { file with timestamp := ⟨file.timestamp.msg, mergeReply ots path att fragment file.timestamp.tree⟩ }

end Pass

section Runs
variable {K V Header O : Type} [Field K] [LinearOrder K] {ots : Package O Header} {src : Sources Header} {α β : Type}

/-! ### Calls -/

/-- An exception that ends a pass. -/
def Severe (e : AnchorError) : Prop := ∀ defect, e ≠ .binding defect

theorem exec_call (c : AnchorCall) (w : PassWorld K V) :
    (call c : Steps K Header _).exec src.answer () w = (((src.reply c w).1, ()), (src.answer c w).2) := by
  refine (Act.exec_ask_bind src.answer c _ () w).trans ?_
  have hreply : (src.answer c w).1 = (src.reply c w).1 := rfl
  rw [hreply]
  rcases (src.reply c w).1 with e | a
  · rfl
  · rfl

theorem events_call (c : AnchorCall) (w : PassWorld K V) :
    (call c : Steps K Header _).events src.answer () w = [⟨c, (src.reply c w).1⟩] := by
  refine (Act.events_ask_bind src.answer c _ () w).trans ?_
  have hreply : (src.answer c w).1 = (src.reply c w).1 := rfl
  rw [hreply]
  rcases (src.reply c w).1 with e | a
  · rfl
  · rfl

/-- A call ends the steps when its reply is an exception of the kind. -/
theorem endedBy_call {fails : Event (anchorCalls K Header) → Prop} {kind : AnchorError → Prop} {c : AnchorCall}
    (hok : ∀ a, ¬ fails ⟨c, .ok a⟩) (herror : ∀ e, fails ⟨c, .error e⟩ ↔ kind e) (s : Unit) (w : PassWorld K V) :
    Act.EndedBy src.answer fails kind (call c) s w := by
  unfold Act.EndedBy
  rw [exec_call, events_call]
  rcases (src.reply c w).1 with e | a
  · simp [herror]
  · simpa using hok a

theorem meets_call {c : AnchorCall} {w : PassWorld K V} {Q : c.Result K Header → Unit → PassWorld K V → Prop}
    {E : Unit → PassWorld K V → Prop} (hok : ∀ a, (src.reply c w).1 = .ok a → Q a () (src.answer c w).2)
    (herror : E () (src.answer c w).2) :
    (call c).Meets (Contract.alone src.answer) () (Act.post Q E) w := by
  rw [Act.meets_alone, exec_call]
  rcases hreply : (src.reply c w).1 with e | a
  · exact herror
  · exact hok a hreply

theorem endedBy_binding {fails : Event (anchorCalls K Header) → Prop} {kind : AnchorError → Prop}
    {x : Except BindingDefect α} (h : ∀ defect, x = .error defect → ¬ kind (.binding defect)) (s : Unit) (w : PassWorld K V) :
    Act.EndedBy src.answer fails kind (binding x) s w := by
  cases x with
  | ok a => exact Act.endedBy_pure a s w
  | error defect => exact Act.endedBy_throw (h defect rfl) s w

theorem meets_binding {x : Except BindingDefect α} {s : Unit} {w : PassWorld K V} {Q : α → Unit → PassWorld K V → Prop}
    {E : Unit → PassWorld K V → Prop} (hok : ∀ a, x = .ok a → Q a s w) (herror : E s w) :
    (binding x : Steps K Header α).Meets (Contract.alone src.answer) s (Act.post Q E) w := by
  rw [Act.meets_alone]
  cases x with
  | ok a => exact hok a rfl
  | error defect => exact herror

theorem exec_binding_ok {x : Except BindingDefect α} {s s' : Unit} {w w' : PassWorld K V} {a : α}
    (h : (binding x : Steps K Header α).exec src.answer s w = ((.ok a, s'), w')) : x = .ok a ∧ w' = w := by
  cases x with
  | ok b =>
    cases h
    exact ⟨rfl, rfl⟩
  | error defect => cases h

/-! ### What a pass writes -/

theorem uses_call (c : AnchorCall) {ok : AnchorCall → Prop} (h : ok c) : Act.Uses ok (call c : Steps K Header _) := by
  refine (Act.uses_ask h).bind fun reply => ?_
  rcases reply with e | a
  · exact Act.uses_throw
  · exact Act.uses_pure

theorem uses_quiet {c : AnchorCall} (h : written c = none) :
    Act.Uses (fun c => written c = none) (call c : Steps K Header _) := uses_call c h

theorem uses_binding {x : Except BindingDefect α} {ok : AnchorCall → Prop} :
    Act.Uses ok (binding x : Steps K Header α) := by
  cases x with
  | ok a => exact Act.uses_pure
  | error defect => exact Act.uses_throw

theorem uses_upgrade [DecidableEq O] (file : DetachedFile O) (runId : UUID) :
    Act.Uses (fun c => written c = none) (upgrade ots file fun uri commitment =>
      (call (.fetch runId uri commitment) : Steps K Header (Option Bytes))) := by
  refine (Act.Uses.foldlM (fun acc path _ => ?_) _).bind fun x => Act.uses_pure
  unfold upgradeNode
  cases acc.1.follow path with
  | none => exact Act.uses_pure
  | some node =>
    refine Act.Uses.foldlM (fun acc att _ => ?_) _
    cases att with
    | bitcoin height => exact Act.uses_pure
    | unknown tag payload => exact Act.uses_pure
    | pending uri =>
      refine (uses_quiet rfl).bind fun reply => ?_
      cases reply with
      | none => exact Act.uses_pure
      | some data => exact uses_binding.bind fun fragment => Act.uses_pure

theorem uses_confirmAt {headers : Bool} {proof : Bytes} {sha256 : Sha256Hex} {status : ProofStatus} :
    Act.Uses (fun c => written c = none) (confirmAt ots headers proof sha256 status : Steps K Header (Option AwareDatetime)) := by
  unfold confirmAt
  split
  · refine Act.Uses.bind ?_ fun _ => (uses_quiet rfl).bind fun at_ => Act.uses_pure
    refine uses_binding.bind fun _ => uses_binding.bind fun file => Act.Uses.bind ?_ fun best => ?_
    · refine Act.Uses.foldlM (fun best x _ => ?_) _
      unfold confirmStep
      split
      · refine (uses_quiet rfl).bind fun h => ?_
        split
        · exact Act.uses_pure
        · exact Act.uses_pure
      · exact Act.uses_pure
    · cases best with
      | none => exact Act.uses_throw
      | some best => exact Act.uses_pure
  · exact Act.uses_pure

/-- A check writes nothing. -/
theorem uses_checkAnchor [DecidableEq O] {headers : Bool} (anchor : CommitmentAnchor) (stored : Bytes) :
    Act.Uses (fun c => written c = none) (checkAnchor ots headers anchor stored : Steps K Header CheckedAnchor) := by
  refine uses_binding.bind fun file => (uses_upgrade file anchor.runId).bind fun x => Act.Uses.bind ?_ fun proof => ?_
  · unfold proofNow dumps
    split
    · split
      · exact Act.uses_throw
      · exact Act.uses_pure
    · exact Act.uses_pure
  · exact uses_binding.bind fun status => uses_confirmAt.bind fun verifiedAt => Act.uses_pure

/-- An upgrade writes the anchor of its run only. -/
theorem uses_upgradeOne [DecidableEq O] {headers : Bool} (summary : UpgradeSummary) (anchor : CommitmentAnchor) :
    Act.Uses (fun c => ∀ a ∈ written c, a.runId = anchor.runId)
      (upgradeOne ots headers summary anchor : Steps K Header UpgradeSummary) := by
  unfold upgradeOne
  cases anchor.otsProof with
  | none => exact Act.uses_pure
  | some stored =>
    refine Act.Uses.bind ?_ fun found => ?_
    · refine Act.Uses.tryCatch ?_ fun e => ?_
      · rw [map_eq_pure_bind]
        refine ((uses_checkAnchor anchor stored).mono fun c hc a ha => ?_).bind fun _ => Act.uses_pure
        rw [hc] at ha
        cases ha
      · cases e with
        | binding defect => exact Act.uses_pure
        | _ => exact Act.uses_throw
    · cases found with
      | none => exact Act.uses_pure
      | some found =>
        show Act.Uses _ (recordChecked anchor found _)
        unfold recordChecked
        split
        · refine (uses_call _ ?_).bind fun _ => Act.uses_pure
          rintro _ ⟨⟩
          rfl
        · exact Act.uses_pure

/-! ### What an upgrade makes of a proof -/

section Upgrade
variable [DecidableEq O] {anchor : CommitmentAnchor} {file : DetachedFile O}

/-- The file with another tree. -/
abbrev withTree (file : DetachedFile O) (tree : OpTree O) : DetachedFile O :=
  { file with timestamp := ⟨file.timestamp.msg, tree⟩ }

variable (ots src anchor file) in
/-- What holds before the places of a tree are visited, and within each place before its calendars are asked. -/
theorem meets_asked {P : OpTree O × Bool → List (List O) → Prop}
    {Q : List (List O) → List O → OpTree O × Bool → List Attestation → Prop}
    (hskip : ∀ acc path rest, P acc (path :: rest) → acc.1.follow path = none → P acc rest)
    (henter : ∀ acc path rest node, P acc (path :: rest) → acc.1.follow path = some node →
      Q rest path acc node.attestations)
    (hkeep : ∀ rest path acc att atts, Q rest path acc (att :: atts) → (∀ uri, att = .pending uri →
      ∃ n, src.fetch n anchor.runId uri (ots.messageAt file.timestamp.msg path) = .ok none) → Q rest path acc atts)
    (hmerge : ∀ rest path acc uri atts n data fragment, Q rest path acc (.pending uri :: atts) →
      src.fetch n anchor.runId uri (ots.messageAt file.timestamp.msg path) = .ok (some data) →
      parseFragment ots data (ots.messageAt file.timestamp.msg path) = .ok fragment →
      Q rest path (mergeReply ots path (.pending uri) fragment acc.1, true) atts)
    (hleave : ∀ rest path acc, Q rest path acc [] → P acc rest)
    (hstart : P (file.timestamp.tree, false) (walk file.timestamp.tree)) (w : PassWorld K V) :
    (asked ots anchor file).Meets (Contract.alone src.answer) ()
      (Act.post (fun x _ _ => ∃ acc, P acc [] ∧ x = (withTree file acc.1, acc.2)) fun _ _ => True) w := by
  refine (Act.Meets.foldlM (P := fun acc rest _ _ => P acc rest) (E := fun _ _ => True)
    (fun _ _ _ => Contract.stable_alone _) ?_ hstart).bind ?_ fun _ _ _ _ h => h
  · intro acc path rest _ w _ hP
    unfold upgradeNode
    cases hnode : acc.1.follow path with
    | none => exact Act.meets_pure.mpr ((Contract.stable_alone _).stays (hskip acc path rest hP hnode))
    | some node =>
      refine (Act.Meets.foldlM (P := fun acc atts _ _ => Q rest path acc atts) (E := fun _ _ => True)
        (fun _ _ _ => Contract.stable_alone _) ?_ (henter acc path rest node hP hnode)).mono ?_
      · intro acc att atts _ w _ hQ
        cases att with
        | bitcoin height => exact Act.meets_pure.mpr ((Contract.stable_alone _).stays (hkeep _ _ _ _ _ hQ nofun))
        | unknown tag payload => exact Act.meets_pure.mpr ((Contract.stable_alone _).stays (hkeep _ _ _ _ _ hQ nofun))
        | pending uri =>
          refine (meets_call (c := .fetch anchor.runId uri (ots.messageAt file.timestamp.msg path))
            (Q := fun (reply : Option Bytes) _ _ => ∃ n, src.fetch n anchor.runId uri
              (ots.messageAt file.timestamp.msg path) = .ok reply) (E := fun _ _ => True)
            (fun reply hreply => ⟨w.calls, hreply⟩) trivial).bind ?_ fun _ _ _ _ h => h
          rintro (_ | data) _ w' - ⟨n, hfetch⟩
          · refine Act.meets_pure.mpr ((Contract.stable_alone _).stays (hkeep _ _ _ _ _ hQ ?_))
            rintro _ ⟨⟩
            exact ⟨n, hfetch⟩
          · refine (meets_binding (Q := fun fragment _ _ => parseFragment ots data _ = .ok fragment) (E := fun _ _ => True)
              (fun fragment hparse => hparse) trivial).bind ?_ fun _ _ _ _ h => h
            rintro fragment _ w' - hparse
            exact Act.meets_pure.mpr ((Contract.stable_alone _).stays (hmerge _ _ _ _ _ n data fragment hQ hfetch hparse))
      · rintro (e | acc) s w - h
        · exact h
        · exact hleave rest path acc h
  · exact fun acc _ w _ hP => Act.meets_pure.mpr ((Contract.stable_alone _).stays ⟨acc, hP, rfl⟩)

/-- The file that an upgrade returns is one with replies merged in. -/
theorem merged_of_asked (hots : ots.Documented) (hfile : Merged ots file) {s' : Unit} {w w' : PassWorld K V}
    {upgraded : DetachedFile O} {changed : Bool}
    (h : (asked ots anchor file).exec src.answer () w = ((.ok (upgraded, changed), s'), w')) : Merged ots upgraded := by
  have hmeets := Act.meets_alone.mp (meets_asked ots src anchor file
    (P := fun acc _ => Merged ots (withTree file acc.1))
    (Q := fun _ path acc _ => Merged ots (withTree file acc.1) ∧ (acc.1.follow path).isSome)
    (fun acc path rest hP _ => hP)
    (fun acc path rest node hP hnode => ⟨hP, hnode ▸ rfl⟩)
    (fun rest path acc att atts hQ _ => hQ)
    (fun rest path acc uri atts n data fragment hQ _ hparse => ?_)
    (fun rest path acc hQ => hQ.1) hfile w)
  · rw [h] at hmeets
    obtain ⟨acc, hacc, hx⟩ := hmeets
    obtain ⟨rfl, -⟩ := Prod.mk.inj hx
    exact hacc
  · obtain ⟨hmerged, hnode⟩ := hQ
    refine ⟨.merge hmerged hnode rfl hparse, ?_⟩
    obtain ⟨node, hnode⟩ := Option.isSome_iff_exists.mp hnode
    have hgrows : acc.1.Grows (mergeReply ots path (.pending uri) fragment acc.1) :=
      grows_mergeReply hots rfl path fragment acc.1
    obtain ⟨node', hnode', -⟩ := hgrows path node hnode
    rw [hnode']
    rfl

/-- The reply of a calendar that completes is merged. -/
theorem found_of_asked (hots : ots.Documented) {msg at_ data : Bytes} {height : Nat} {uri : String}
    {fragment : Timestamp O} (hpending : (at_, .pending uri) ∈ ots.allAttestations file.timestamp)
    (hfetch : ∀ n, src.fetch n anchor.runId uri at_ = .ok (some data)) (hparse : parseFragment ots data at_ = .ok fragment)
    (hx : (msg, .bitcoin height) ∈ ots.allAttestations fragment) {s' : Unit} {w w' : PassWorld K V}
    {upgraded : DetachedFile O} {changed : Bool}
    (h : (asked ots anchor file).exec src.answer () w = ((.ok (upgraded, changed), s'), w')) :
    changed = true ∧ (msg, .bitcoin height) ∈ ots.allAttestations upgraded.timestamp := by
  obtain ⟨place, node, hplace, rfl, hatt⟩ := (hots.mem_allAttestations file.timestamp at_ _).mp hpending
  -- found, or the calendar's place is still to be visited, or its calendar is still to be asked there
  have hmeets := Act.meets_alone.mp (meets_asked ots src anchor file
    (P := fun acc rest => (acc.2 = true ∧ (msg, .bitcoin height) ∈ ots.allAttestations ⟨file.timestamp.msg, acc.1⟩) ∨
      place ∈ rest ∧ ∃ node, acc.1.follow place = some node ∧ .pending uri ∈ node.attestations)
    (Q := fun rest path acc atts => (acc.1.follow path).isSome ∧
      ((acc.2 = true ∧ (msg, .bitcoin height) ∈ ots.allAttestations ⟨file.timestamp.msg, acc.1⟩) ∨
        (path = place ∧ .pending uri ∈ atts) ∨
        (path ≠ place ∧ place ∈ rest ∧ ∃ node, acc.1.follow place = some node ∧ .pending uri ∈ node.attestations)))
    ?_ ?_ ?_ ?_ ?_ (Or.inr ⟨mem_walk hplace, node, hplace, hatt⟩) w)
  · rw [h] at hmeets
    obtain ⟨acc, hacc, hx⟩ := hmeets
    obtain ⟨rfl, rfl⟩ := Prod.mk.inj hx
    rcases hacc with hfound | ⟨hnil, -⟩
    · exact hfound
    · cases hnil
  · rintro acc path rest (hfound | ⟨hmem, node, hnode, hatt⟩) hnone
    · exact Or.inl hfound
    · rcases List.mem_cons.mp hmem with rfl | hmem
      · rw [hnode] at hnone
        cases hnone
      · exact Or.inr ⟨hmem, node, hnode, hatt⟩
  · rintro acc path rest node' hP hnode'
    refine ⟨hnode' ▸ rfl, ?_⟩
    rcases hP with hfound | ⟨hmem, node, hnode, hatt⟩
    · exact Or.inl hfound
    · by_cases hpath : path = place
      · refine Or.inr (Or.inl ⟨hpath, ?_⟩)
        rw [hpath, hnode] at hnode'
        rw [← Option.some.inj hnode']
        exact hatt
      · rcases List.mem_cons.mp hmem with rfl | hmem
        · exact absurd rfl hpath
        · exact Or.inr (Or.inr ⟨hpath, hmem, node, hnode, hatt⟩)
  · rintro rest path acc att atts ⟨hsome, hfound | ⟨rfl, hmem⟩ | hlater⟩ hnone
    · exact ⟨hsome, Or.inl hfound⟩
    · rcases List.mem_cons.mp hmem with rfl | hmem
      · obtain ⟨n, hreply⟩ := hnone uri rfl
        rw [hfetch n] at hreply
        cases hreply
      · exact ⟨hsome, Or.inr (Or.inl ⟨rfl, hmem⟩)⟩
    · exact ⟨hsome, Or.inr (Or.inr hlater)⟩
  · rintro rest path acc uri' atts n data' fragment' ⟨hsome, hcase⟩ hreply hparse'
    have hgrows : acc.1.Grows (mergeReply ots path (.pending uri') fragment' acc.1) :=
      grows_mergeReply hots rfl path fragment' acc.1
    obtain ⟨node', hnode'⟩ := Option.isSome_iff_exists.mp hsome
    obtain ⟨node'', hnode'', -⟩ := hgrows path node' hnode'
    refine ⟨hnode'' ▸ rfl, ?_⟩
    rcases hcase with ⟨-, hmem⟩ | ⟨rfl, hmem⟩ | ⟨hne, hrest, node, hnode, hatt⟩
    · exact Or.inl ⟨rfl, mem_of_grows hots hmem hgrows⟩
    · rcases List.mem_cons.mp hmem with heq | hmem
      · cases heq
        rw [hfetch n] at hreply
        cases hreply
        rw [hparse] at hparse'
        cases hparse'
        exact Or.inl ⟨rfl, mem_mergeReply hots rfl hsome (parseFragment_msg hparse) hx⟩
      · exact Or.inr (Or.inl ⟨rfl, hmem⟩)
    · exact Or.inr (Or.inr ⟨hne, hrest, pending_mergeReply hots (Ne.symm hne) (.pending uri') hnode hatt⟩)
  · rintro rest path acc ⟨-, hfound | ⟨-, hnil⟩ | ⟨-, hrest⟩⟩
    · exact Or.inl hfound
    · cases hnil
    · exact Or.inr hrest

end Upgrade

/-! ### What ends a check -/

section Check
variable [DecidableEq O] {anchor : CommitmentAnchor} {stored : Bytes} {fails : Event (anchorCalls K Header) → Prop}
  {kind : AnchorError → Prop}

theorem endedBy_asked (hreply : ∀ path msg acc uri s (w : PassWorld K V), Act.EndedBy src.answer fails kind (upgradeAttestation ots
      (fun uri commitment => (call (.fetch anchor.runId uri commitment) : Steps K Header (Option Bytes))) path msg acc
      (.pending uri)) s w) (file : DetachedFile O) (s : Unit) (w : PassWorld K V) :
    Act.EndedBy src.answer fails kind (asked ots anchor file) s w := by
  refine Act.EndedBy.bind (Act.EndedBy.foldlM (fun acc path s w => ?_) _ _ _ _) fun x s w _ => Act.endedBy_pure _ s w
  unfold upgradeNode
  cases acc.1.follow path with
  | none => exact Act.endedBy_pure _ s w
  | some node =>
    refine Act.EndedBy.foldlM (fun acc att s w => ?_) _ _ _ _
    cases att with
    | bitcoin height => exact Act.endedBy_pure _ s w
    | unknown tag payload => exact Act.endedBy_pure _ s w
    | pending uri => exact hreply path _ acc uri s w

omit [DecidableEq O] in
theorem endedBy_confirmSteps (hok : ∀ height a, ¬ fails ⟨.header height, .ok a⟩)
    (herror : ∀ height e, fails ⟨.header height, .error e⟩ ↔ kind e) (best : Option BitcoinConfirmation)
    (l : List (Bytes × Attestation)) (s : Unit) (w : PassWorld K V) :
    Act.EndedBy src.answer fails kind
      (l.foldlM (confirmStep ots fun height => (call (.header height) : Steps K Header Header)) best) s w := by
  refine Act.EndedBy.foldlM (fun best x s w => ?_) _ _ _ _
  unfold confirmStep
  split
  · next height _ =>
    refine (endedBy_call (hok height) (herror height) s w).bind fun header s w _ => ?_
    split
    · exact Act.endedBy_pure _ s w
    · exact Act.endedBy_pure _ s w
  · exact Act.endedBy_pure _ s w

/-! #### By an exception that ends the pass -/

theorem endsPass_error {c : AnchorCall} {e : AnchorError} :
    EndsPass (⟨c, .error e⟩ : Event (anchorCalls K Header)) ↔ Severe e := by
  cases e with
  | binding defect => exact iff_of_false (fun h => h) fun h => h defect rfl
  | _ => exact iff_of_true trivial nofun

theorem endedBy_call_severe (c : AnchorCall) (s : Unit) (w : PassWorld K V) :
    Act.EndedBy src.answer EndsPass Severe (call c) s w :=
  endedBy_call (fun _ h => h) (fun _ => endsPass_error) s w

theorem endedBy_binding_severe (x : Except BindingDefect α) (s : Unit) (w : PassWorld K V) :
    Act.EndedBy src.answer EndsPass Severe (binding x) s w :=
  endedBy_binding (fun defect _ h => h defect rfl) s w

/-- A check ends the pass only by a call. -/
theorem endedBy_check_severe (hots : ots.Documented) (hwrites : ∀ file, Merged ots file → (ots.serialize file).isSome)
    (s : Unit) (w : PassWorld K V) :
    Act.EndedBy src.answer EndsPass Severe (checkAnchor ots true anchor stored) s w := by
  refine (endedBy_binding_severe _ s w).bind fun file s w hfile => ?_
  have hmerged : Merged ots file := .read (deserialize_of_loads (exec_binding_ok hfile).1)
  have hasked : Act.EndedBy src.answer EndsPass Severe (asked ots anchor file) s w := by
    refine endedBy_asked (fun path msg acc uri s w => ?_) file s w
    refine (endedBy_call_severe _ s w).bind fun reply s w _ => ?_
    cases reply with
    | none => exact Act.endedBy_pure _ s w
    | some data => exact (endedBy_binding_severe _ s w).bind fun fragment s w _ => Act.endedBy_pure _ s w
  refine hasked.bind fun x s w hx => ?_
  refine Act.EndedBy.bind ?_ fun proof s w _ => (endedBy_binding_severe _ s w).bind fun status s w _ => ?_
  · unfold proofNow dumps
    split
    · obtain ⟨proof, hproof⟩ := Option.isSome_iff_exists.mp (hwrites _ (merged_of_asked hots hmerged hx))
      rw [hproof]
      exact Act.endedBy_pure _ s w
    · exact Act.endedBy_pure _ s w
  · refine Act.EndedBy.bind ?_ fun verifiedAt s w _ => Act.endedBy_pure _ s w
    unfold confirmAt
    split
    · refine Act.EndedBy.bind ?_ fun _ s w _ => (endedBy_call_severe .clock s w).bind fun at_ s w _ => Act.endedBy_pure _ s w
      refine (endedBy_binding_severe _ s w).bind fun _ s w _ => (endedBy_binding_severe _ s w).bind fun file s w _ => ?_
      refine (endedBy_confirmSteps (fun _ _ h => h) (fun _ _ => endsPass_error) none _ s w).bind fun best s w _ => ?_
      cases best with
      | none => exact Act.endedBy_throw (fun h => h _ rfl) s w
      | some best => exact Act.endedBy_pure _ s w
    · exact Act.endedBy_pure _ s w

theorem endedBy_upgradeOne (hots : ots.Documented) (hwrites : ∀ file, Merged ots file → (ots.serialize file).isSome)
    (summary : UpgradeSummary) (anchor : CommitmentAnchor) (s : Unit) (w : PassWorld K V) :
    Act.EndedBy src.answer EndsPass Severe (upgradeOne ots true summary anchor) s w := by
  unfold upgradeOne
  cases anchor.otsProof with
  | none => exact Act.endedBy_pure _ s w
  | some stored =>
    refine Act.EndedBy.bind ?_ fun found s w _ => ?_
    · refine Act.EndedBy.tryCatch ?_ ?_ ?_
      · rw [map_eq_pure_bind]
        exact (endedBy_check_severe hots hwrites s w).bind fun _ s w _ => Act.endedBy_pure _ s w
      · intro e he
        cases e with
        | binding defect => exact absurd rfl (he defect)
        | _ => rfl
      · intro e s w he
        cases e with
        | binding defect => exact Act.endedBy_pure _ s w
        | _ => exact absurd nofun he
    · cases found with
      | none => exact Act.endedBy_pure _ s w
      | some found =>
        show Act.EndedBy src.answer EndsPass Severe (recordChecked anchor found _) s w
        unfold recordChecked
        split
        · exact (endedBy_call_severe _ s w).bind fun _ s w _ => Act.endedBy_pure _ s w
        · exact Act.endedBy_pure _ s w

/-- A pass over some anchors ends early exactly when a call raises more than that a proof does not bind. -/
theorem endedBy_pass (hots : ots.Documented) (hwrites : ∀ file, Merged ots file → (ots.serialize file).isSome)
    (anchors : List CommitmentAnchor) (s : Unit) (w : PassWorld K V) :
    Act.EndedBy src.answer EndsPass Severe (pass ots anchors) s w :=
  Act.EndedBy.foldlM (endedBy_upgradeOne hots hwrites) anchors _ s w

/-! #### By any exception -/

/-- A call and what follows it, when a reply that is not an exception may also be a failure. -/
theorem endedBy_call_bind {c : AnchorCall} {f : c.Result K Header → Steps K Header α} {s : Unit} {w : PassWorld K V}
    (herror : ∀ e, fails ⟨c, .error e⟩ ↔ kind e)
    (hok : ∀ a (w : PassWorld K V), (∃ e, ((f a).exec src.answer () w).1.1 = .error e ∧ kind e) ↔
      fails ⟨c, .ok a⟩ ∨ ∃ event ∈ (f a).events src.answer () w, fails event) :
    Act.EndedBy src.answer fails kind (call c >>= f) s w := by
  unfold Act.EndedBy
  rw [Act.exec_bind, Act.events_bind, exec_call, events_call]
  rcases (src.reply c w).1 with e | a
  · simp [herror]
  · simpa using hok a (src.answer c w).2

theorem endedBy_fetch (path : List O) (msg : Bytes) (acc : OpTree O × Bool) (uri : String) (s : Unit) (w : PassWorld K V) :
    Act.EndedBy src.answer (EndsCheck ots) (fun _ => True) (upgradeAttestation ots
      (fun uri commitment => (call (.fetch anchor.runId uri commitment) : Steps K Header (Option Bytes))) path msg acc
      (.pending uri)) s w := by
  refine endedBy_call_bind (c := .fetch anchor.runId uri msg) (fun e => iff_of_true trivial trivial) fun reply w => ?_
  rcases reply with _ | data
  · refine iff_of_false ?_ ?_
    · rintro ⟨e, he, -⟩
      cases he
    · rintro (hends | ⟨event, hevent, -⟩)
      · exact hends
      · cases hevent
  · show (∃ e, ((binding (parseFragment ots data msg) >>= _ : Steps K Header _).exec _ () w).1.1 = .error e ∧ True) ↔
      (∃ defect, parseFragment ots data msg = .error defect) ∨
        ∃ event ∈ (binding (parseFragment ots data msg) >>= _ : Steps K Header _).events _ () w, _
    cases parseFragment ots data msg with
    | error defect => exact iff_of_true ⟨_, rfl, trivial⟩ (Or.inl ⟨defect, rfl⟩)
    | ok fragment =>
      refine iff_of_false ?_ ?_
      · rintro ⟨e, he, -⟩
        cases he
      · rintro (⟨defect, hdefect⟩ | ⟨event, hevent, -⟩)
        · cases hdefect
        · cases hevent

omit [DecidableEq O] in
theorem confirmed_of_mem {proof : Bytes} {sha256 : Sha256Hex} {status : ProofStatus} {file : DetachedFile O} {msg : Bytes}
    {height : Nat} (hbinding : checkBinding ots proof sha256 = .ok status) (hfile : loads ots proof = .ok file)
    (hx : (msg, .bitcoin height) ∈ ots.allAttestations file.timestamp) : status.confirmed = true := by
  have hstatus : status = proofStatus (ots.allAttestations file.timestamp) := by
    unfold checkBinding at hbinding
    rw [hfile] at hbinding
    dsimp only at hbinding
    split at hbinding
    · cases hbinding
    · split at hbinding
      · cases hbinding
      · split at hbinding
        · cases hbinding
        · exact (Except.ok.inj hbinding).symm
  have hmem : height ∈ status.bitcoinHeights := by
    rw [hstatus]
    exact (List.mem_insertionSort _).mpr (List.mem_filterMap.mpr ⟨_, hx, rfl⟩)
  rw [ProofStatus.confirmed, Bool.not_eq_true', List.isEmpty_eq_false_iff]
  exact List.ne_nil_of_mem hmem

/-- What a check that returns went through. -/
theorem check_eq_ok {s s' : Unit} {w w' : PassWorld K V} {found : CheckedAnchor}
    (h : (checkAnchor ots true anchor stored).exec src.answer s w = ((.ok found, s'), w')) :
    ∃ file upgraded changed w₁ status, loads ots stored = .ok file ∧
      (asked ots anchor file).exec src.answer () w = ((.ok (upgraded, changed), ()), w₁) ∧
      (changed = true → ots.serialize upgraded = some found.proof) ∧
      checkBinding ots found.proof anchor.sha256 = .ok status ∧ found.changed = changed ∧
      (confirmAt ots true found.proof anchor.sha256 status).exec src.answer () w₁ = ((.ok found.verifiedAt, ()), w') := by
  obtain ⟨file, _, _, hload, h₁⟩ := Act.exec_eq_ok.mp h
  obtain ⟨hfile, rfl⟩ := exec_binding_ok hload
  obtain ⟨⟨upgraded, changed⟩, _, w₁, hasked, h₂⟩ := Act.exec_eq_ok.mp h₁
  dsimp only at h₂
  obtain ⟨proof, _, w₂, hproof, h₃⟩ := Act.exec_eq_ok.mp h₂
  obtain ⟨status, _, w₃, hbind, h₄⟩ := Act.exec_eq_ok.mp h₃
  obtain ⟨hbinding, rfl⟩ := exec_binding_ok hbind
  obtain ⟨verifiedAt, _, w₄, hconfirm, h₅⟩ := Act.exec_eq_ok.mp h₄
  cases h₅
  have hwritten : w₃ = w₁ ∧ (changed = true → ots.serialize upgraded = some proof) := by
    unfold proofNow dumps at hproof
    split at hproof
    · cases hserialize : ots.serialize upgraded with
      | none =>
        rw [hserialize] at hproof
        cases hproof
      | some data =>
        rw [hserialize] at hproof
        cases hproof
        exact ⟨rfl, fun _ => rfl⟩
    · next hchanged =>
      cases hproof
      exact ⟨rfl, fun h => absurd h hchanged⟩
  obtain ⟨rfl, hwritten⟩ := hwritten
  exact ⟨file, upgraded, changed, w₃, status, hfile, hasked, hwritten, hbinding, rfl, hconfirm⟩

omit [DecidableEq O] in
/-- The attestation that verifies makes a confirmation. -/
theorem best_of_confirmSteps {msg : Bytes} {height : Nat} {header : Header} (hheader : ∀ n, src.header n height = .ok header)
    (hverify : (ots.verifyAgainstBlockheader height msg header).isSome) {l : List (Bytes × Attestation)}
    (hx : (msg, .bitcoin height) ∈ l) {s s' : Unit} {w w' : PassWorld K V} {best : Option BitcoinConfirmation}
    (h : (l.foldlM (confirmStep ots fun height => (call (.header height) : Steps K Header Header)) none).exec src.answer s w =
      ((.ok best, s'), w')) : best.isSome := by
  have hmeets := Act.meets_alone.mp (Act.Meets.foldlM (C := Contract.alone src.answer) (s := s) (w := w)
    (f := confirmStep ots fun height => (call (.header height) : Steps K Header Header))
    (P := fun best rest _ _ => best.isSome ∨ (msg, .bitcoin height) ∈ rest) (E := fun _ _ => True)
    (fun _ _ _ => Contract.stable_alone _) ?_ (b := none) (Or.inr hx))
  · rw [h] at hmeets
    rcases hmeets with hsome | hnil
    · exact hsome
    · cases hnil
  · rintro best ⟨msg', att⟩ rest s w - hP
    have hstay : att ≠ .bitcoin height → best.isSome ∨ (msg, .bitcoin height) ∈ rest := by
      intro hne
      refine hP.imp_right fun hmem => ?_
      rcases List.mem_cons.mp hmem with heq | hmem
      · exact absurd (Prod.mk.inj heq).2.symm hne
      · exact hmem
    cases att with
    | pending uri => exact Act.meets_pure.mpr ((Contract.stable_alone _).stays (hstay nofun))
    | unknown tag payload => exact Act.meets_pure.mpr ((Contract.stable_alone _).stays (hstay nofun))
    | bitcoin height' =>
      refine (meets_call (c := .header height') (Q := fun (h : Header) _ _ => ∃ n, src.header n height' = .ok h)
        (E := fun _ _ => True) (fun h hreply => ⟨w.calls, hreply⟩) trivial).bind ?_ fun _ _ _ _ h => h
      rintro h _ w' - ⟨n, hlookup⟩
      cases hblock : ots.verifyAgainstBlockheader height' msg' h with
      | some blockTime => exact Act.meets_pure.mpr ((Contract.stable_alone _).stays (Or.inl rfl))
      | none =>
        refine Act.meets_pure.mpr ((Contract.stable_alone _).stays (hP.imp_right fun hmem => ?_))
        rcases List.mem_cons.mp hmem with heq | hmem
        · -- this is the one that verifies
          cases heq
          rw [hheader n] at hlookup
          cases hlookup
          rw [hblock] at hverify
          cases hverify
        · exact hmem

omit [DecidableEq O] in
theorem endedBy_confirmAt {msg proof : Bytes} {sha256 : Sha256Hex} {status : ProofStatus} {file : DetachedFile O}
    {height : Nat} {header : Header} (hbinding : checkBinding ots proof sha256 = .ok status)
    (hfile : loads ots proof = .ok file) (hx : (msg, .bitcoin height) ∈ ots.allAttestations file.timestamp)
    (hheader : ∀ n, src.header n height = .ok header) (hverify : (ots.verifyAgainstBlockheader height msg header).isSome)
    (s : Unit) (w : PassWorld K V) :
    Act.EndedBy src.answer (EndsCheck ots) (fun _ => True) (confirmAt ots true proof sha256 status) s w := by
  rw [confirmAt, if_pos ⟨confirmed_of_mem hbinding hfile hx, rfl⟩]
  refine Act.EndedBy.bind ?_ fun _ s w _ => (endedBy_call (fun _ h => h) (fun _ => iff_of_true trivial trivial) s w).bind
    fun at_ s w _ => Act.endedBy_pure _ s w
  refine (endedBy_binding (fun defect hdefect => ?_) s w).bind fun _ s w _ =>
    (endedBy_binding (fun defect hdefect => ?_) s w).bind fun file' s w hload => ?_
  · rw [hbinding] at hdefect
    cases hdefect
  · rw [hfile] at hdefect
    cases hdefect
  · have hsame : file = file' := Except.ok.inj (hfile.symm.trans (exec_binding_ok hload).1)
    subst hsame
    refine (endedBy_confirmSteps (fun _ _ h => h) (fun _ _ => iff_of_true trivial trivial) none _ s w).bind
      fun best s' w' hbest => ?_
    obtain ⟨best, rfl⟩ := Option.isSome_iff_exists.mp (best_of_confirmSteps hheader hverify hx hbest)
    exact Act.endedBy_pure _ s' w'

section Own
variable {msg : Bytes} {height : Nat} (hots : ots.Documented)
  (hwrites : ∀ file, Merged ots file → (ots.serialize file).isSome) (hcompleted : Completed ots src anchor msg height)
  (hstored : anchor.otsProof = some stored)
include hots hwrites hcompleted hstored

/-- The check of an anchor that a calendar completes ends only by a call, if the proof fits. -/
theorem endedBy_check (s : Unit) (w : PassWorld K V) (hfits : Fits ots src w anchor stored) :
    Act.EndedBy src.answer (EndsCheck ots) (fun _ => True) (checkAnchor ots true anchor stored) s w := by
  obtain ⟨⟨stored', hstored', file, hfile, -, uri, at_, data, fragment, hpending, hfetch, hparse, hx⟩, header, hheader,
    hverify⟩ := hcompleted
  rw [hstored] at hstored'
  cases hstored'
  refine (endedBy_binding (fun defect hdefect => ?_) s w).bind fun file' s₁ w₁ hload => ?_
  · rw [hfile] at hdefect
    cases hdefect
  obtain ⟨hfile', rfl⟩ := exec_binding_ok hload
  have hsame : file = file' := Except.ok.inj (hfile.symm.trans hfile')
  subst hsame
  refine (endedBy_asked endedBy_fetch file s₁ w₁).bind ?_
  rintro ⟨upgraded, changed⟩ s₂ w₂ hasked
  obtain ⟨rfl, hfound⟩ := found_of_asked hots hpending hfetch hparse hx hasked
  obtain ⟨proof, hproof⟩ := Option.isSome_iff_exists.mp
    (hwrites _ (merged_of_asked hots (.read (deserialize_of_loads hfile)) hasked))
  obtain ⟨status, hbinding⟩ := hfits file (by rw [hfile]; rfl) upgraded true w₂ hasked proof hproof
  obtain ⟨file', hfile'⟩ := loads_of_checkBinding hbinding
  have hx' := (hots.serialize_attestations upgraded proof file' hproof (deserialize_of_loads hfile') _).mpr hfound
  have hnow : (proofNow ots upgraded true stored : Steps K Header Bytes) = pure proof := by
    rw [proofNow, if_pos rfl, dumps, hproof]
  show Act.EndedBy _ _ _ (proofNow ots upgraded true stored >>= _) s₂ w₂
  rw [hnow]
  refine (Act.endedBy_pure proof s₂ w₂).bind fun proof' s₃ w₃ hpure => ?_
  cases hpure
  refine (endedBy_binding (fun defect hdefect => ?_) s₂ w₂).bind fun status' s₄ w₄ hbind => ?_
  · rw [hbinding] at hdefect
    cases hdefect
  · refine (endedBy_confirmAt (exec_binding_ok hbind).1 hfile' hx' hheader hverify s₄ w₄).bind fun _ s w _ => ?_
    exact Act.endedBy_pure _ s w

omit hwrites in
/-- What the check of such an anchor finds. -/
theorem found_of_check {s s' : Unit} {w w' : PassWorld K V} {found : CheckedAnchor}
    (h : (checkAnchor ots true anchor stored).exec src.answer s w = ((.ok found, s'), w')) :
    Fits ots src w anchor stored ∧ found.verifiedAt.isSome ∧
      ∃ file, loads ots found.proof = .ok file ∧ (msg, .bitcoin height) ∈ ots.allAttestations file.timestamp := by
  obtain ⟨⟨stored', hstored', file, hfile, -, uri, at_, data, fragment, hpending, hfetch, hparse, hx⟩, -⟩ := hcompleted
  rw [hstored] at hstored'
  cases hstored'
  obtain ⟨file₁, upgraded, changed, w₁, status, hload, hasked, hproof, hbinding, -, hconfirm⟩ := check_eq_ok h
  have hsame : file = file₁ := Except.ok.inj (hfile.symm.trans hload)
  subst hsame
  obtain ⟨rfl, hfound⟩ := found_of_asked hots hpending hfetch hparse hx hasked
  have hproof := hproof rfl
  obtain ⟨file', hfile'⟩ := loads_of_checkBinding hbinding
  have hx' := (hots.serialize_attestations upgraded _ file' hproof (deserialize_of_loads hfile') _).mpr hfound
  refine ⟨?_, ?_, file', hfile', hx'⟩
  · intro file₂ hfile₂ upgraded' changed' w'' hasked' proof' hproof'
    rw [hfile] at hfile₂
    cases hfile₂
    rw [hasked] at hasked'
    cases hasked'
    rw [hproof] at hproof'
    cases hproof'
    exact ⟨status, hbinding⟩
  · rw [confirmAt, if_pos ⟨confirmed_of_mem hbinding hfile' hx', rfl⟩] at hconfirm
    obtain ⟨_, _, w₂, -, hrest⟩ := Act.exec_eq_ok.mp hconfirm
    obtain ⟨at_, _, w₃, -, hlast⟩ := Act.exec_eq_ok.mp hrest
    have hsome : found.verifiedAt = some at_ := (Except.ok.inj (Prod.mk.inj (Prod.mk.inj hlast).1).1).symm
    rw [hsome]
    rfl

/-- The check returns exactly when no call ends it and the proof fits. -/
theorem check_returns_iff (w : PassWorld K V) :
    (∃ found w', (checkAnchor ots true anchor stored).exec src.answer () w = ((.ok found, ()), w')) ↔
      (∀ event ∈ (checkAnchor ots true anchor stored).events src.answer () w, ¬ EndsCheck ots event) ∧
        Fits ots src w anchor stored := by
  constructor
  · rintro ⟨found, w', hcheck⟩
    have hfits := (found_of_check hots hcompleted hstored hcheck).1
    exact ⟨(endedBy_check hots hwrites hcompleted hstored () w hfits).not_fails hcheck, hfits⟩
  · rintro ⟨hnone, hfits⟩
    obtain ⟨found, s', w', hcheck⟩ := (endedBy_check hots hwrites hcompleted hstored () w hfits).returns hnone
    exact ⟨found, w', hcheck⟩

end Own
end Check

/-! ### The rows of a pass -/

/-- The anchors are keyed by run, and the row of a run is this one. -/
def HasRow (db : RunTables K V) (runId : UUID) (row : CommitmentAnchor) : Prop :=
  KeyedTable.Unique CommitmentAnchor.runId db.commitmentAnchors ∧ db.anchor? runId = some row

variable {db db' : RunTables K V} {runId : UUID} {row : CommitmentAnchor}

theorem HasRow.upsert_other (h : HasRow db runId row) {anchor : CommitmentAnchor} (hne : anchor.runId ≠ runId)
    (hupsert : upsertAnchor db anchor = .ok db') : HasRow db' runId row := by
  obtain ⟨hunique, hrow⟩ := h
  unfold upsertAnchor at hupsert
  split at hupsert
  · next hnone =>
    split at hupsert
    · cases hupsert
      have hnew := KeyedTable.unique_insertNew hunique anchor
      rw [KeyedTable.insertNew_of_none hnone] at hnew
      refine ⟨hnew, ?_⟩
      show KeyedTable.find _ (_ ++ _) _ = _
      rw [KeyedTable.find_append, show KeyedTable.find _ db.commitmentAnchors runId = some row from hrow, Option.some_or]
    · cases hupsert
  · split at hupsert
    · cases hupsert
      have hkey : ∀ r, CommitmentAnchor.runId (upgradeAnchor anchor r) = r.runId := fun _ => rfl
      refine ⟨KeyedTable.unique_modify hkey hunique, ?_⟩
      show KeyedTable.find _ (KeyedTable.modify _ _ _ _) _ = _
      rw [KeyedTable.find_modify hkey, if_neg (Ne.symm hne)]
      exact hrow
    · cases hupsert

theorem HasRow.upsert (h : HasRow db runId row) {anchor : CommitmentAnchor} (hrun : anchor.runId = runId)
    (hsha : row.sha256 = anchor.sha256) :
    ∃ db', upsertAnchor db anchor = .ok db' ∧ HasRow db' runId (upgradeAnchor anchor row) := by
  obtain ⟨hunique, hrow⟩ := h
  subst hrun
  have hkey : ∀ r, CommitmentAnchor.runId (upgradeAnchor anchor r) = r.runId := fun _ => rfl
  refine ⟨_, by simp only [upsertAnchor, hrow, if_pos hsha]; rfl, KeyedTable.unique_modify hkey hunique, ?_⟩
  show KeyedTable.find _ (KeyedTable.modify _ _ _ _) _ = _
  rw [KeyedTable.find_modify hkey, if_pos rfl, show KeyedTable.find _ db.commitmentAnchors anchor.runId = some row from hrow,
    Option.map_some]

/-- A call that writes no anchor of the run keeps its row. -/
theorem HasRow.answer {w : PassWorld K V} (h : HasRow w.db runId row) {c : AnchorCall}
    (hc : ∀ a ∈ written c, a.runId ≠ runId) : HasRow (src.answer c w).2.db runId row := by
  cases c with
  | recordAnchor anchor =>
    show HasRow (match upsertAnchor w.db anchor with
      | .ok db => ((.ok (), db) : Except AnchorError Unit × RunTables K V)
      | .error _ => (.error .other, w.db)).2 runId row
    cases hupsert : upsertAnchor w.db anchor with
    | ok db => exact h.upsert_other (hc anchor rfl) hupsert
    | error e => exact h
  | _ => exact h

theorem HasRow.exec {w : PassWorld K V} (h : HasRow w.db runId row) {m : Steps K Header α}
    (hm : m.Uses fun c => ∀ a ∈ written c, a.runId ≠ runId) (s : Unit) : HasRow (m.exec src.answer s w).2.db runId row :=
  hm.exec (P := fun w : PassWorld K V => HasRow w.db runId row) (fun _ _ hc h => h.answer hc) s h

/-- The other anchors of a pass do not write the row. -/
theorem HasRow.pass [DecidableEq O] {w : PassWorld K V} (h : HasRow w.db runId row) {anchors : List CommitmentAnchor}
    (hne : ∀ a ∈ anchors, a.runId ≠ runId) (summary : UpgradeSummary) (s : Unit) :
    HasRow ((anchors.foldlM (upgradeOne ots true) summary).exec src.answer s w).2.db runId row := by
  refine h.exec (Act.Uses.foldlM (fun summary a ha => ?_) summary) s
  exact (uses_upgradeOne summary a).mono fun c hc anchor hanchor => (hc anchor hanchor).trans_ne (hne a ha)

theorem HasRow.confirmedWith_iff (h : HasRow db runId row) {anchor : CommitmentAnchor} (hrun : anchor.runId = runId)
    {msg : Bytes} {height : Nat} : ConfirmedWith ots db anchor msg height ↔ row.verifiedAt.isSome ∧
      ∃ proof ∈ row.otsProof, ∃ file, loads ots proof = .ok file ∧ (msg, .bitcoin height) ∈ ots.allAttestations file.timestamp := by
  obtain ⟨hunique, hrow⟩ := h
  obtain ⟨hmem, hkey⟩ := KeyedTable.find_some hrow
  constructor
  · rintro ⟨a, ha, haRun, hconfirmed⟩
    have hsame : db.anchor? runId = some a := (KeyedTable.find_eq_some hunique).mpr ⟨ha, haRun.trans hrun⟩
    rw [hrow] at hsame
    rw [Option.some.inj hsame]
    exact hconfirmed
  · exact fun hconfirmed => ⟨row, hmem, hkey.trans hrun.symm, hconfirmed⟩

/-! ### A pass -/

section Passes
variable [DecidableEq O] {anchor : CommitmentAnchor} {stored : Bytes}

/-- An upgrade is what its check comes to. -/
theorem exec_upgradeOne (hstored : anchor.otsProof = some stored) (summary : UpgradeSummary) (s : Unit) (w : PassWorld K V) :
    (upgradeOne ots true summary anchor).exec src.answer s w =
      match (checkAnchor ots true anchor stored).exec src.answer s w with
      | ((.ok found, s), w) =>
        (recordChecked anchor found { summary with checked := summary.checked + 1 }).exec src.answer s w
      | ((.error (.binding _), s), w) => ((.ok { summary with checked := summary.checked + 1, failed := summary.failed + 1 }, s), w)
      | ((.error e, s), w) => ((.error e, s), w) := by
  simp only [upgradeOne, hstored]
  rw [Act.exec_bind, Act.exec_tryCatch, map_eq_pure_bind, Act.exec_bind]
  rcases (checkAnchor ots true anchor stored).exec src.answer s w with ⟨⟨e | found, s'⟩, w'⟩
  · cases e with
    | _ => rfl
  · rfl

/-- What is stored of a checked anchor. -/
abbrev checkedRow (anchor : CommitmentAnchor) (found : CheckedAnchor) : CommitmentAnchor where
  runId := anchor.runId
  sha256 := anchor.sha256
  otsProof := some found.proof
  gitCommit := none
  anchoredAt := anchor.anchoredAt
  verifiedAt := found.verifiedAt

omit [DecidableEq O] in
theorem exec_recordChecked {found : CheckedAnchor} (h : found.changed = true ∨ found.verifiedAt.isSome)
    (summary : UpgradeSummary) (s : Unit) (w : PassWorld K V) :
    ∃ summary', (recordChecked anchor found summary : Steps K Header UpgradeSummary).exec src.answer s w =
      match upsertAnchor w.db (checkedRow anchor found) with
      | .ok db => ((.ok summary', ()), ⟨w.calls + 1, db⟩)
      | .error _ => ((.error .other, ()), ⟨w.calls + 1, w.db⟩) := by
  refine ⟨{ summary with
    upgraded := summary.upgraded + if found.changed = true then 1 else 0
    confirmed := summary.confirmed + if found.verifiedAt.isSome then 1 else 0 }, ?_⟩
  rw [recordChecked, if_pos h]
  cases hupsert : upsertAnchor w.db (checkedRow anchor found) with
  | ok db =>
    have hcall : (call (.recordAnchor (checkedRow anchor found)) : Steps K Header Unit).exec src.answer s w =
        ((.ok (), ()), ⟨w.calls + 1, db⟩) := by
      refine (exec_call _ w).trans ?_
      simp only [Sources.answer, Sources.reply, hupsert]
    exact Act.exec_bind_ok hcall
  | error e =>
    have hcall : (call (.recordAnchor (checkedRow anchor found)) : Steps K Header Unit).exec src.answer s w =
        ((.error .other, ()), ⟨w.calls + 1, w.db⟩) := by
      refine (exec_call _ w).trans ?_
      simp only [Sources.answer, Sources.reply, hupsert]
    exact Act.exec_bind_error hcall

omit [DecidableEq O] in
/-- A record is refused only by the store. -/
theorem severe_of_recordChecked {found : CheckedAnchor} {summary : UpgradeSummary} {s s' : Unit} {w w' : PassWorld K V}
    {e : AnchorError} (h : (recordChecked anchor found summary : Steps K Header UpgradeSummary).exec src.answer s w =
      ((.error e, s'), w')) : Severe e := by
  by_cases hchanged : found.changed = true ∨ found.verifiedAt.isSome
  · obtain ⟨summary', hexec⟩ := exec_recordChecked hchanged summary s w
    rw [hexec] at h
    split at h
    · cases h
    · cases h
      exact nofun
  · rw [recordChecked, if_neg hchanged] at h
    cases h

/-- An upgrade raises only what ends the pass. -/
theorem severe_of_upgradeOne {summary : UpgradeSummary} {s s' : Unit} {w w' : PassWorld K V}
    {e : AnchorError} (h : (upgradeOne ots true summary anchor).exec src.answer s w = ((.error e, s'), w')) : Severe e := by
  cases hproof : anchor.otsProof with
  | none =>
    simp only [upgradeOne, hproof] at h
    cases h
  | some stored =>
    rw [exec_upgradeOne hproof] at h
    rcases hcheck : (checkAnchor ots true anchor stored).exec src.answer s w with ⟨⟨e' | found, s₁⟩, w₁⟩
    · rw [hcheck] at h
      cases e' with
      | binding defect => cases h
      | _ =>
        cases h
        exact nofun
    · rw [hcheck] at h
      exact severe_of_recordChecked h

theorem severe_of_pass {anchors : List CommitmentAnchor} {summary : UpgradeSummary} {s s' : Unit} {w w' : PassWorld K V}
    {e : AnchorError} (h : (anchors.foldlM (upgradeOne ots true) summary).exec src.answer s w = ((.error e, s'), w')) :
    Severe e := by
  induction anchors generalizing summary s w with
  | nil => cases h
  | cons anchor anchors ih =>
    rw [List.foldlM_cons, Act.exec_bind] at h
    rcases hone : (upgradeOne ots true summary anchor).exec src.answer s w with ⟨⟨e' | summary', s₁⟩, w₁⟩
    · rw [hone] at h
      cases h
      exact severe_of_upgradeOne hone
    · rw [hone] at h
      exact ih h

/-- The row of an anchor whose check does not return stays, and that of one whose check returns is confirmed by it. -/
theorem confirmedWith_upgradeOne {msg : Bytes} {height : Nat} (hots : ots.Documented)
    (hcompleted : Completed ots src anchor msg height) (hstored : anchor.otsProof = some stored)
    (hverified : anchor.verifiedAt = none) {later : List CommitmentAnchor} (hlater : ∀ a ∈ later, a.runId ≠ anchor.runId)
    (summary : UpgradeSummary) {w : PassWorld K V} (hrow : HasRow w.db anchor.runId anchor) :
    ConfirmedWith ots (((anchor :: later).foldlM (upgradeOne ots true) summary).exec src.answer () w).2.db anchor msg height ↔
      ∃ found w', (checkAnchor ots true anchor stored).exec src.answer () w = ((.ok found, ()), w') := by
  have hunconfirmed : ∀ {db : RunTables K V}, HasRow db anchor.runId anchor → ¬ ConfirmedWith ots db anchor msg height := by
    intro db hdb hconfirmed
    have hsome := ((hdb.confirmedWith_iff rfl).mp hconfirmed).1
    rw [hverified] at hsome
    cases hsome
  have hkept : HasRow ((checkAnchor ots true anchor stored).exec src.answer () w).2.db anchor.runId anchor := by
    refine hrow.exec ((uses_checkAnchor anchor stored).mono fun c hc a ha => ?_) ()
    rw [hc] at ha
    cases ha
  rw [List.foldlM_cons, Act.exec_bind, exec_upgradeOne hstored]
  rcases hcheck : (checkAnchor ots true anchor stored).exec src.answer () w with ⟨⟨e | found, s₁⟩, w₁⟩
  · rw [hcheck] at hkept
    refine iff_of_false ?_ ?_
    · cases e with
      | binding defect => exact hunconfirmed (hkept.pass hlater _ _)
      | _ => exact hunconfirmed hkept
    · rintro ⟨found, w', h⟩
      cases h
  · rw [hcheck] at hkept
    refine iff_of_true ?_ ⟨found, w₁, rfl⟩
    obtain ⟨-, hsome, hfile⟩ := found_of_check hots hcompleted hstored hcheck
    obtain ⟨db', hupsert, hrow'⟩ := hkept.upsert (rfl : (checkedRow anchor found).runId = _) rfl
    obtain ⟨summary', hrecord⟩ := exec_recordChecked (Or.inr hsome)
      { summary with checked := summary.checked + 1 } s₁ w₁
    rw [hupsert] at hrecord
    dsimp only
    rw [hrecord]
    have hlast : HasRow ((later.foldlM (upgradeOne ots true) summary').exec src.answer () ⟨w₁.calls + 1, db'⟩).2.db
        anchor.runId (upgradeAnchor (checkedRow anchor found) anchor) := HasRow.pass hrow' hlater summary' ()
    refine (hlast.confirmedWith_iff rfl).mpr ⟨?_, found.proof, rfl, hfile⟩
    rw [upgradeAnchor, Option.isSome_or, hsome, Bool.true_or]

/-- An anchor that a pending calendar of its proof completes is confirmed by a pass, with that proof, exactly when no
    call ends the pass before it is checked, and no call ends its check. -/
theorem upgradeAll_confirms_iff (hots : ots.Documented) (hwrites : ∀ file, Merged ots file → (ots.serialize file).isSome)
    {w : PassWorld K V} (hunique : KeyedTable.Unique CommitmentAnchor.runId w.db.commitmentAnchors)
    {earlier later : List CommitmentAnchor}
    (hawaiting : Store.anchorsAwaitingConfirmation w.db = earlier ++ anchor :: later) {msg : Bytes} {height : Nat}
    (hcompleted : Completed ots src anchor msg height) :
    ConfirmedWith ots ((upgradeAll ots true).exec src.answer () w).2.db anchor msg height ↔
      Undisturbed ots src (src.answer .anchorsAwaitingConfirmation w).2 earlier anchor := by
  have hmem : ∀ a ∈ earlier ++ anchor :: later, a ∈ w.db.commitmentAnchors ∧ a.verifiedAt = none := by
    intro a ha
    rw [← hawaiting, Store.anchorsAwaitingConfirmation, List.mem_insertionSort, List.mem_filter] at ha
    obtain ⟨ha, hwaits⟩ := ha
    rw [Bool.and_eq_true, Option.isNone_iff_eq_none] at hwaits
    exact ⟨ha, hwaits.1⟩
  have hnodup : ((earlier ++ anchor :: later).map CommitmentAnchor.runId).Nodup := by
    rw [← hawaiting]
    exact ((List.perm_insertionSort _ _).map _).nodup_iff.mpr (hunique.sublist (List.filter_sublist.map _))
  have hdisjoint := List.nodup_append.mp (List.map_append ▸ hnodup)
  have hearlier : ∀ a ∈ earlier, a.runId ≠ anchor.runId := fun a ha =>
    hdisjoint.2.2 _ (List.mem_map_of_mem ha) _ List.mem_cons_self
  have hlater : ∀ a ∈ later, a.runId ≠ anchor.runId := by
    intro a ha heq
    have hnot := (List.nodup_cons.mp hdisjoint.2.1).1
    exact hnot (heq ▸ List.mem_map_of_mem ha)
  obtain ⟨hanchor, hverified⟩ := hmem anchor (List.mem_append_right _ List.mem_cons_self)
  obtain ⟨stored, hstored, -⟩ := hcompleted.reply
  have hrow : HasRow w.db anchor.runId anchor := ⟨hunique, (KeyedTable.find_eq_some hunique).mpr ⟨hanchor, rfl⟩⟩
  generalize hw₀ : (src.answer .anchorsAwaitingConfirmation w).2 = w₀
  have hrow₀ : HasRow w₀.db anchor.runId anchor := hw₀ ▸ hrow
  have hread : (call .anchorsAwaitingConfirmation : Steps K Header (List CommitmentAnchor)).exec src.answer () w =
      ((.ok (earlier ++ anchor :: later), ()), w₀) := by
    refine (exec_call _ w).trans ?_
    rw [hw₀, ← hawaiting]
    rfl
  have hpass : (upgradeAll ots true).exec src.answer () w =
      ((earlier ++ anchor :: later).foldlM (upgradeOne ots true) ⟨0, 0, 0, 0⟩).exec src.answer () w₀ :=
    Act.exec_bind_ok hread
  have hrow₁ : HasRow ((pass ots earlier).exec src.answer () w₀).2.db anchor.runId anchor :=
    HasRow.pass hrow₀ hearlier ⟨0, 0, 0, 0⟩ ()
  rw [hpass, List.foldlM_append, Act.exec_bind]
  rcases hbefore : (pass ots earlier).exec src.answer () w₀ with ⟨⟨e | summary, s₁⟩, w₁⟩
  · -- the pass has ended
    rw [hbefore] at hrow₁
    refine iff_of_false ?_ fun h => ?_
    · intro hconfirmed
      have hsome := ((HasRow.confirmedWith_iff hrow₁ rfl).mp hconfirmed).1
      rw [hverified] at hsome
      cases hsome
    · obtain ⟨event, hevent, hends⟩ := (endedBy_pass hots hwrites earlier () w₀).mp ⟨e, by rw [hbefore], severe_of_pass hbefore⟩
      exact h.reached event hevent hends
  · rw [hbefore] at hrow₁
    have hreached := (endedBy_pass hots hwrites earlier () w₀).not_fails hbefore
    refine (confirmedWith_upgradeOne hots hcompleted hstored hverified hlater summary hrow₁).trans
      ((check_returns_iff hots hwrites hcompleted hstored w₁).trans ?_)
    constructor
    · rintro ⟨hown, hfits⟩
      refine ⟨hreached, fun stored' hstored' => ?_, fun stored' hstored' => ?_⟩
      · rw [hbefore, Option.mem_unique hstored' hstored]
        exact hown
      · rw [hbefore, Option.mem_unique hstored' hstored]
        exact hfits
    · intro h
      have hown := h.own stored hstored
      have hfits := h.fits stored hstored
      rw [hbefore] at hown hfits
      exact ⟨hown, hfits⟩

end Passes

end Runs

/-! ### Two calendars, one of them down -/

section Pools
open Sink

/-- A proof that two calendars are to complete, and the same proof when one has. -/
def poolFiles : List (List Attestation) := [[calendar, upstream], [.bitcoin 100, upstream]]

/-- The package on files with these attestations, in any order. -/
def poolPackage : Package String Bytes where
  apply := leafPackage.apply
  deserialize data := (poolFiles.find? fun atts => leafBytes atts = data).map leafFile
  serialize file :=
    match file.timestamp.tree with
    | .node atts [] => some (((poolFiles.find? fun l => l.isPerm atts && file.timestamp.msg = zeroDigest).map leafBytes).getD [])
    | _ => some []
  deserializeReply := leafPackage.deserializeReply
  merge := leafPackage.merge
  allAttestations := leafPackage.allAttestations
  verifyAgainstBlockheader := leafPackage.verifyAgainstBlockheader

theorem poolPackage_documented : poolPackage.Documented where
  serialize_attestations file data file' hserialize hdeserialize x := by
    obtain ⟨hashOp, digest, msg, tree⟩ := file
    obtain ⟨atts, ops⟩ := tree
    obtain ⟨l, hfind, rfl⟩ := Option.map_eq_some_iff.mp hdeserialize
    have hdata : leafBytes l = data := by
      have hl := List.find?_some hfind
      rwa [decide_eq_true_eq] at hl
    have hnonempty : ∀ l ∈ poolFiles, leafBytes l ≠ [] := by decide
    have hinj : ∀ l ∈ poolFiles, ∀ l' ∈ poolFiles, leafBytes l = leafBytes l' → l = l' := by decide
    have hl := List.mem_of_find?_eq_some hfind
    cases ops with
    | cons _ _ =>
      cases hserialize
      exact absurd hdata (hnonempty l hl)
    | nil =>
      simp only [poolPackage, Option.some.injEq] at hserialize
      cases hknown : poolFiles.find? fun l => l.isPerm atts && decide (msg = zeroDigest) with
      | none =>
        rw [hknown] at hserialize
        exact absurd (hdata.trans hserialize.symm) (hnonempty l hl)
      | some l' =>
        rw [hknown] at hserialize
        have hsome := List.find?_some hknown
        rw [Bool.and_eq_true, decide_eq_true_eq, List.isPerm_iff] at hsome
        obtain ⟨hperm, rfl⟩ := hsome
        obtain rfl := hinj l hl l' (List.mem_of_find?_eq_some hknown) (hdata.trans hserialize.symm)
        obtain ⟨msg, att⟩ := x
        refine (leafPackage_documented.mem_allAttestations _ msg att).trans
          (Iff.trans ?_ (leafPackage_documented.mem_allAttestations _ msg att).symm)
        constructor
        · rintro ⟨path, n, hn, hmsg, hatt⟩
          cases path with
          | nil =>
            cases hn
            exact ⟨[], _, rfl, hmsg, hperm.mem_iff.mp hatt⟩
          | cons op path => cases hn
        · rintro ⟨path, n, hn, hmsg, hatt⟩
          cases path with
          | nil =>
            cases hn
            exact ⟨[], _, rfl, hmsg, hperm.mem_iff.mpr hatt⟩
          | cons op path => cases hn
  merge_extends := leafPackage_documented.merge_extends
  mem_allAttestations := leafPackage_documented.mem_allAttestations

theorem poolPackage_writes (file : DetachedFile String) : (poolPackage.serialize file).isSome := by
  obtain ⟨hashOp, digest, msg, tree⟩ := file
  obtain ⟨atts, ops⟩ := tree
  cases ops with
  | nil => rfl
  | cons _ _ => rfl

/-- The first calendar has the completed timestamp, and the other replies so to every call. -/
def poolSources (other : Except AnchorError (Option Bytes)) : Sources Bytes where
  fetch _ _ uri _ := if uri = "https://a.pool" then .ok (some (attestationBytes (.bitcoin 100))) else other
  header _ _ := .ok zeroDigest
  clock _ := ⟨5, 0⟩

def poolWorld : PassWorld ℚ Unit := ⟨0, anchorTables [calendar, upstream] none⟩

theorem loads_pool {atts : List Attestation} (h : atts ∈ poolFiles) :
    loads poolPackage (leafBytes atts) = .ok (leafFile atts) := by
  have hlength : ∀ l ∈ poolFiles, ¬ (leafBytes l = [] ∨ maxProofBytes < (leafBytes l).length) := by decide +kernel
  have hfind : ∀ l ∈ poolFiles, poolFiles.find? (fun l' => leafBytes l' = leafBytes l) = some l := by decide
  have hread : poolPackage.deserialize (leafBytes atts) = some (leafFile atts) := by
    show (poolFiles.find? fun l => leafBytes l = leafBytes atts).map leafFile = _
    rw [hfind atts h]
    rfl
  rw [loads, if_neg (hlength atts h), hread]

theorem bound_pool {atts : List Attestation} (h : atts ∈ poolFiles) :
    ∃ status, checkBinding poolPackage (leafBytes atts) zeroHex = .ok status := by
  have hstatus : ∀ l ∈ poolFiles, ¬ ((proofStatus (poolPackage.allAttestations (leafFile l).timestamp)).pending = [] ∧
      (proofStatus (poolPackage.allAttestations (leafFile l).timestamp)).bitcoinHeights = []) := by decide
  have hdigest : fromHex zeroHex.val.toList = zeroDigest := by decide
  refine ⟨proofStatus (poolPackage.allAttestations (leafFile atts).timestamp), ?_⟩
  rw [checkBinding, loads_pool h]
  dsimp only
  rw [if_neg (fun hne => hne rfl), hdigest, if_neg (fun hne => hne.elim (fun h => h rfl) fun h => h rfl),
    if_neg (hstatus atts h)]

theorem parse_pool : parseFragment poolPackage (attestationBytes (.bitcoin 100)) zeroDigest =
    .ok ⟨zeroDigest, .node [.bitcoin 100] []⟩ := by
  have hlength : ¬ (attestationBytes (.bitcoin 100) = [] ∨ maxFragmentBytes < (attestationBytes (.bitcoin 100)).length) := by
    decide
  rw [parseFragment, if_neg hlength]
  rfl

theorem fetch_pool (other : Except AnchorError (Option Bytes)) (n : Nat) (runId : UUID) (msg : Bytes) :
    (poolSources other).fetch n runId "https://a.pool" msg = .ok (some (attestationBytes (.bitcoin 100))) := by
  have hsame : (if "https://a.pool" = "https://a.pool" then .ok (some (attestationBytes (.bitcoin 100))) else other) =
      (.ok (some (attestationBytes (.bitcoin 100))) : Except AnchorError (Option Bytes)) := if_pos rfl
  exact hsame

theorem pool_completed (other : Except AnchorError (Option Bytes)) :
    Completed poolPackage (poolSources other) (leafAnchor [calendar, upstream] none) zeroDigest 100 where
  reply := ⟨leafBytes [calendar, upstream], rfl, leafFile [calendar, upstream], loads_pool (by decide),
    bound_pool (by decide), "https://a.pool", zeroDigest, attestationBytes (.bitcoin 100), _,
    List.mem_cons_self, fun n => fetch_pool other n _ _, parse_pool, List.mem_cons_self⟩
  header := ⟨zeroDigest, fun _ => rfl, rfl⟩

/-- The run of an anchor, its proof, and whether it has a confirmation time. -/
def summaryOf (db : RunTables ℚ Unit) : List (UUID × Option Bytes × Bool) :=
  db.commitmentAnchors.map fun a => (a.runId, a.otsProof, a.verifiedAt.isSome)

/-- The first calendar has the completed timestamp, and the second cannot be reached: the anchor is not confirmed. -/
theorem upgradeAll_dead_calendar :
    poolPackage.Documented ∧ (∀ file, Merged poolPackage file → (poolPackage.serialize file).isSome) ∧
      Store.anchorsAwaitingConfirmation poolWorld.db = [leafAnchor [calendar, upstream] none] ∧
      Completed poolPackage (poolSources (.error .unavailable)) (leafAnchor [calendar, upstream] none) zeroDigest 100 ∧
      ¬ ConfirmedWith poolPackage
        ((upgradeAll poolPackage true).exec (poolSources (.error .unavailable)).answer () poolWorld).2.db
        (leafAnchor [calendar, upstream] none) zeroDigest 100 := by
  refine ⟨poolPackage_documented, fun file _ => poolPackage_writes file, rfl, pool_completed _, ?_⟩
  have hnone : (summaryOf ((upgradeAll poolPackage true).exec
      (poolSources (.error .unavailable)).answer () poolWorld).2.db).all (fun x => !x.2.2) = true := by decide +kernel
  rintro ⟨a, ha, -, hsome, -⟩
  have hfalse := List.all_eq_true.mp hnone _ (List.mem_map_of_mem ha)
  rw [hsome] at hfalse
  cases hfalse

/-- The second calendar is not ready: the anchor is confirmed. -/
theorem upgradeAll_confirms_pool :
    Undisturbed poolPackage (poolSources (.ok none))
      ((poolSources (.ok none)).answer .anchorsAwaitingConfirmation poolWorld).2 [] (leafAnchor [calendar, upstream] none) := by
  have hrow : summaryOf ((upgradeAll poolPackage true).exec (poolSources (.ok none)).answer () poolWorld).2.db =
      [(⟨1⟩, some (leafBytes [.bitcoin 100, upstream]), true)] := by decide +kernel
  have hunique : KeyedTable.Unique CommitmentAnchor.runId poolWorld.db.commitmentAnchors := List.nodup_singleton _
  have hawaiting : Store.anchorsAwaitingConfirmation poolWorld.db = [] ++ leafAnchor [calendar, upstream] none :: [] := rfl
  refine (upgradeAll_confirms_iff poolPackage_documented (fun file _ => poolPackage_writes file) hunique hawaiting
    (pool_completed _)).mp ?_
  have hmem : (⟨1⟩, some (leafBytes [.bitcoin 100, upstream]), true) ∈ summaryOf
      ((upgradeAll poolPackage true).exec (poolSources (.ok none)).answer () poolWorld).2.db :=
    hrow ▸ List.mem_singleton_self _
  obtain ⟨a, ha, hsummary⟩ := List.mem_map.mp hmem
  obtain ⟨hrun, hsummary⟩ := Prod.mk.inj hsummary
  obtain ⟨hproof, hsome⟩ := Prod.mk.inj hsummary
  exact ⟨a, ha, hrun, hsome, _, hproof, _, loads_pool (by decide), List.mem_cons_self⟩

end Pools
end AnchorStage
end AsymmetricCommittee
