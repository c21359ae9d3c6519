import AsymmetricCommittee.Contracts.Commitment

/-! # The canonical commitment document

A record enters the document through its dump, and the document of a record determines the record up to the
offsets its datetimes are written in. `utc` is the record with every datetime written in UTC, so two records have
the same document exactly when they have the same `utc`. -/

namespace AsymmetricCommittee

/-! ### Records in UTC -/

def AwareDatetime.utc (d : AwareDatetime) : AwareDatetime := ⟨d.instant, 0⟩

theorem AwareDatetime.utc_inj {d d' : AwareDatetime} : d.utc = d'.utc ↔ d.instant = d'.instant := by
  simp [utc]

section Utc
variable {K : Type} [Field K] [LinearOrder K]

/-- What the commitment takes from the run. -/
structure RunIdentity where
  runId : UUID
  mode : RunMode
  asOf : AwareDatetime
  configHash : Sha256Hex

def RunRow.identity (run : RunRow K) : RunIdentity := ⟨run.runId, run.mode, run.asOf, run.configHash⟩

def RunIdentity.utc (i : RunIdentity) : RunIdentity := { i with asOf := i.asOf.utc }

def CommitteeDecision.utc (d : CommitteeDecision K) : CommitteeDecision K := { d with asOf := d.asOf.utc }

def CommitteeDecisionRecord.utc (r : CommitteeDecisionRecord K) : CommitteeDecisionRecord K :=
  { r with decision := r.decision.utc }

def ProposedBook.utc (b : ProposedBook K) : ProposedBook K := { b with asOf := b.asOf.utc }

def CioDecision.utc (d : CioDecision) : CioDecision := { d with asOf := d.asOf.utc }

def PortfolioSnapshot.utc (s : PortfolioSnapshot K) : PortfolioSnapshot K where
  runId := s.runId
  asOf := s.asOf.utc
  book := s.book.utc
  cashWeight := s.cashWeight
  cio := s.cio.map CioDecision.utc
  book_run := s.book_run
  book_asOf := s.book_asOf
  cash_residual := s.cash_residual

end Utc

/-! ### Scalars -/

section Scalars

theorem hexDigits_injective : Function.Injective fun n => ((Nat.digitsAppend 16 32 n).reverse.map Nat.digitChar) := by
  intro n m h
  have hvalue : ∀ k, ((Nat.digitsAppend 16 32 k).map Nat.digitChar).map Json.hexDigit = Nat.digitsAppend 16 32 k := by
    intro k
    rw [List.map_map]
    conv_rhs => rw [← List.map_id (Nat.digitsAppend 16 32 k)]
    exact List.map_congr_left fun d hd => Json.hexDigit_digitChar (Nat.lt_of_mem_digitsAppend (by decide : 1 < 16) 32 d hd)
  have hread : ∀ k, Nat.ofDigits 16 (Nat.digitsAppend 16 32 k) = k := by
    intro k
    rw [Nat.digitsAppend, Nat.ofDigits_append_replicate_zero, Nat.ofDigits_digits]
  have hchars : (Nat.digitsAppend 16 32 n).map Nat.digitChar = (Nat.digitsAppend 16 32 m).map Nat.digitChar := by
    simpa using h
  rw [← hread n, ← hread m, ← hvalue n, ← hvalue m, hchars]

theorem UUID.str_injective : Function.Injective UUID.str := by
  intro u v h
  have hlength : ∀ w : UUID, 32 ≤ ((Nat.digitsAppend 16 32 w.int).reverse.map Nat.digitChar).length := by
    intro w
    simp only [Nat.digitsAppend, List.length_map, List.length_reverse, List.length_append, List.length_replicate]
    omega
  have hu := hlength u
  have hv := hlength v
  have hlist := congrArg String.toList h
  simp only [UUID.str, String.toList_ofList] at hlist
  have hhex : (Nat.digitsAppend 16 32 u.int).reverse.map Nat.digitChar =
      (Nat.digitsAppend 16 32 v.int).reverse.map Nat.digitChar := by
    generalize (Nat.digitsAppend 16 32 u.int).reverse.map Nat.digitChar = cs at *
    generalize (Nat.digitsAppend 16 32 v.int).reverse.map Nat.digitChar = ds at *
    obtain ⟨h1, hlist⟩ := List.append_inj hlist (by simp; omega)
    obtain ⟨h2, hlist⟩ := List.append_inj (List.cons.inj hlist).2 (by simp; omega)
    obtain ⟨h3, hlist⟩ := List.append_inj (List.cons.inj hlist).2 (by simp; omega)
    obtain ⟨h4, hlist⟩ := List.append_inj (List.cons.inj hlist).2 (by simp; omega)
    have h5 := (List.cons.inj hlist).2
    have hgroups : ∀ l : List Char, l = l.take 8 ++ ((l.drop 8).take 4 ++ ((l.drop 12).take 4 ++
        ((l.drop 16).take 4 ++ l.drop 20))) := by
      intro l
      have hstep : ∀ n, (l.drop n).take 4 ++ l.drop (n + 4) = l.drop n := by
        intro n
        rw [← List.drop_drop, List.take_append_drop]
      rw [hstep 16, hstep 12, hstep 8, List.take_append_drop]
    rw [hgroups cs, hgroups ds, h1, h2, h3, h4, h5]
  have hint : u.int = v.int := hexDigits_injective hhex
  cases u
  cases v
  simpa using hint

theorem AgentName.enumValue_injective : Function.Injective AgentName.enumValue := by
  intro a b h
  cases a <;> cases b <;> simp [AgentName.enumValue] at h ⊢

theorem RunMode.value_injective : Function.Injective RunMode.value := by
  intro a b h
  cases a <;> cases b <;> simp [RunMode.value] at h ⊢

theorem BearSeverity.value_injective : Function.Injective BearSeverity.value := by
  intro a b h
  cases a <;> cases b <;> simp [BearSeverity.value] at h ⊢

theorem CioAction.value_injective : Function.Injective CioAction.value := by
  intro a b h
  cases a <;> cases b <;> simp [CioAction.value] at h ⊢

theorem SizingMode.value_injective : Function.Injective SizingMode.value := by
  intro a b h
  cases a <;> cases b <;> simp [SizingMode.value] at h ⊢

theorem Horizon.value_injective : Function.Injective Horizon.value := by
  intro a b h
  cases a <;> cases b <;> simp [Horizon.value] at h ⊢

end Scalars

namespace PyValue
variable {N : Type}

theorem canonEntries_eq (es : List (String × PyValue N)) : canonEntries es = es.map fun e => (e.1, canon e.2) := by
  induction es with
  | nil => rfl
  | cons e es ih => rw [canonEntries, ih, List.map_cons]

theorem canonItems_eq (vs : List (PyValue N)) : canonItems vs = vs.map canon := by
  induction vs with
  | nil => rfl
  | cons v vs ih => rw [canonItems, ih, List.map_cons]

-- canonical values are canonical already, so that the second pass over the decisions changes nothing
mutual
theorem canon_ofJson : ∀ j : Json N, canon (ofJson j) = j
  | .null => rfl
  | .bool _ => rfl
  | .int _ => rfl
  | .float _ => rfl
  | .str _ => rfl
  | .arr js => by rw [ofJson, canon, canonItems_ofItems js]
  | .obj es => by rw [ofJson, canon, canonEntries_ofEntries es]

theorem canonItems_ofItems : ∀ js : List (Json N), canonItems (ofItems js) = js
  | [] => rfl
  | j :: js => by rw [ofItems, canonItems, canon_ofJson j, canonItems_ofItems js]

theorem canonEntries_ofEntries : ∀ es : List (String × Json N), canonEntries (ofEntries es) = es
  | [] => rfl
  | (k, j) :: es => by rw [ofEntries, canonEntries, canon_ofJson j, canonEntries_ofEntries es]
end

/-- The document of a value. -/
def doc (v : PyValue N) : Json N := v.canon.sortBy id

theorem doc_list (vs : List (PyValue N)) : doc (.list vs) = .arr (vs.map doc) := by
  rw [doc, canon, canonItems_eq, Json.sortBy_arr, List.map_map]
  rfl

theorem doc_ofJson (v : PyValue N) : doc (ofJson v.canon) = doc v := by
  rw [doc, canon_ofJson, doc]

/-- Values of the same fields with the same document have the same documents field by field. -/
theorem doc_dict_inj {es es' : List (String × PyValue N)} (h : doc (.dict es) = doc (.dict es'))
    (hkeys : es.map Prod.fst = es'.map Prod.fst) (hnodup : (es.map Prod.fst).Nodup) :
    es.map (fun e => doc e.2) = es'.map fun e => doc e.2 := by
  simp only [doc, canon, canonEntries_eq] at h
  simpa [Function.comp_def, doc] using Json.sortBy_obj_inj id (by simpa [Function.comp_def] using hkeys)
    (by simpa [Function.comp_def] using hnodup) h

theorem map_doc_inj {α β : Type} {dump : α → PyValue N} {f : α → β}
    (hdump : ∀ a b, doc (dump a) = doc (dump b) → f a = f b) {as bs : List α}
    (h : doc (.list (as.map dump)) = doc (.list (bs.map dump))) : as.map f = bs.map f := by
  rw [doc_list, doc_list, Json.arr.injEq, List.map_map, List.map_map] at h
  induction as generalizing bs with
  | nil =>
    cases bs with
    | nil => rfl
    | cons b bs => cases h
  | cons a as ih =>
    cases bs with
    | nil => cases h
    | cons b bs =>
      obtain ⟨hhead, htail⟩ := List.cons.inj h
      rw [List.map_cons, List.map_cons, hdump a b hhead, ih htail]

theorem doc_str {s t : String} (h : doc (.str s : PyValue N) = doc (.str t)) : s = t := by
  cases h
  rfl

theorem doc_datetime {d d' : AwareDatetime} (h : doc (.datetime d : PyValue N) = doc (.datetime d')) :
    d.utc = d'.utc :=
  AwareDatetime.utc_inj.mpr (IsoTime.isoUtcMicros_injective (Json.str.inj h))

theorem doc_uuid {u v : UUID} (h : doc (.uuid u : PyValue N) = doc (.uuid v)) : u = v :=
  UUID.str_injective (Json.str.inj h)

theorem doc_opt {α : Type} {f : α → PyValue N} (hf : ∀ a b, doc (f a) = doc (f b) → a = b)
    (hnone : ∀ a, doc (f a) ≠ .null) {a b : Option α} (h : doc (opt f a) = doc (opt f b)) : a = b := by
  cases a with
  | none =>
    cases b with
    | none => rfl
    | some b => exact absurd h.symm (hnone b)
  | some a =>
    cases b with
    | none => exact absurd h (hnone a)
    | some b => exact congrArg some (hf a b h)

theorem doc_enum_opt {α : Type} {value : α → String} (hvalue : Function.Injective value) {a b : Option α}
    (h : doc (opt (fun a => .enum (.str (value a)) : α → PyValue N) a) = doc (opt (fun a => .enum (.str (value a))) b)) :
    a = b :=
  doc_opt (f := fun a => .enum (.str (value a))) (fun _ _ h => hvalue (Json.str.inj h))
    (fun _ => by simp [doc, canon, Json.sortBy]) h

end PyValue

/-! ### Records are determined by their documents -/

section Documents
open PyValue

theorem CioNameDecision.doc_inj {N : Type} {d d' : CioNameDecision} (h : (d.dump : PyValue N).doc = d'.dump.doc) : d = d' := by
  have hfields := doc_dict_inj h rfl (by simp)
  simp only [List.map_cons, List.map_nil, List.cons.injEq, and_true] at hfields
  obtain ⟨htoken, haction, hreason⟩ := hfields
  have htoken := Subtype.ext (doc_str htoken)
  have haction := CioAction.value_injective (Json.str.inj haction)
  have hreason := doc_str hreason
  cases d
  cases d'
  simp only at htoken haction hreason
  simp [*]

theorem CioDecision.doc_inj {N : Type} {d d' : CioDecision} (h : (d.dump : PyValue N).doc = d'.dump.doc) : d.utc = d'.utc := by
  have hfields := doc_dict_inj h rfl (by simp)
  simp only [List.map_cons, List.map_nil, List.cons.injEq, and_true] at hfields
  obtain ⟨hdecisions, hrationale, hrun, -, hasOf, hprompt, hmodel⟩ := hfields
  have hdecisions := map_doc_inj (f := id) (fun _ _ => CioNameDecision.doc_inj) hdecisions
  have hrationale := Subtype.ext (doc_str hrationale)
  have hrun := doc_uuid hrun
  have hasOf := doc_datetime hasOf
  have hprompt := Subtype.ext (doc_str hprompt)
  have hmodel := Subtype.ext (doc_str hmodel)
  cases d
  cases d'
  simp only [List.map_id] at hdecisions hrationale hrun hasOf hprompt hmodel
  simp [utc, *]

variable {K : Type} [Field K] [LinearOrder K]

theorem AgentWeight.doc_inj {w w' : AgentWeight K} (h : w.dump.doc = w'.dump.doc) : w = w' := by
  have hfields := doc_dict_inj h rfl (by simp)
  simp only [List.map_cons, List.map_nil, List.cons.injEq, and_true] at hfields
  obtain ⟨hagent, hweight⟩ := hfields
  have hagent := AgentName.enumValue_injective (Json.str.inj hagent)
  have hweight := Subtype.ext (Json.float.inj hweight)
  cases w
  cases w'
  simp only at hagent hweight
  rw [hagent, hweight]

theorem CommitteeDecision.doc_inj {d d' : CommitteeDecision K} (h : d.dump.doc = d'.dump.doc) : d.utc = d'.utc := by
  have hfields := doc_dict_inj h rfl (by simp)
  simp only [List.map_cons, List.map_nil, List.cons.injEq, and_true] at hfields
  obtain ⟨hrun, hsid, htoken, hasOf, hhorizon, hp, hdispersion, hweights, hbear, htarget⟩ := hfields
  have hrun := doc_uuid hrun
  have hsid := Subtype.ext (Json.int.inj hsid)
  have htoken := Subtype.ext (doc_str htoken)
  have hasOf := doc_datetime hasOf
  have hhorizon := Horizon.value_injective (Json.int.inj hhorizon)
  have hp := Subtype.ext (Json.float.inj hp)
  have hdispersion := Subtype.ext (Json.float.inj hdispersion)
  have hweights := map_doc_inj (f := id) (fun _ _ => AgentWeight.doc_inj) hweights
  have hbear := doc_enum_opt BearSeverity.value_injective hbear
  have htarget := Subtype.ext (Json.float.inj htarget)
  cases d
  cases d'
  simp only [List.map_id] at hrun hsid htoken hasOf hhorizon hp hdispersion hweights hbear htarget
  simp [utc, *]

theorem CommitteeDecisionRecord.doc_inj {r r' : CommitteeDecisionRecord K} (h : r.dump.doc = r'.dump.doc) :
    r.utc = r'.utc := by
  have hfields := doc_dict_inj h rfl (by simp)
  simp only [List.map_cons, List.map_nil, List.cons.injEq, and_true] at hfields
  obtain ⟨hdecision, hlogit, hsizing, hcio, hrationale⟩ := hfields
  have hdecision := CommitteeDecision.doc_inj hdecision
  have hlogit := doc_opt (f := PyValue.float) (fun _ _ h => Json.float.inj h)
    (fun _ => by simp [doc, canon, Json.sortBy]) hlogit
  have hsizing := doc_enum_opt SizingMode.value_injective hsizing
  have hcio := doc_enum_opt CioAction.value_injective hcio
  have hrationale := doc_opt (f := PyValue.str) (fun _ _ h => doc_str h)
    (fun _ => by simp [doc, canon, Json.sortBy]) hrationale
  cases r
  cases r'
  simp only at hdecision hlogit hsizing hcio hrationale
  simp [utc, *]

theorem ProposedPosition.doc_inj {p p' : ProposedPosition K} (h : p.dump.doc = p'.dump.doc) : p = p' := by
  have hfields := doc_dict_inj h rfl (by simp)
  simp only [List.map_cons, List.map_nil, List.cons.injEq, and_true] at hfields
  obtain ⟨hsid, htoken, hsector, hp, hweight⟩ := hfields
  have hsid := Subtype.ext (Json.int.inj hsid)
  have htoken := Subtype.ext (doc_str htoken)
  have hsector := Subtype.ext (doc_str hsector)
  have hp := Subtype.ext (Json.float.inj hp)
  have hweight := Subtype.ext (Json.float.inj hweight)
  cases p
  cases p'
  simp only at hsid htoken hsector hp hweight
  rw [hsid, htoken, hsector, hp, hweight]

theorem ProposedBook.doc_inj {b b' : ProposedBook K} (h : b.dump.doc = b'.dump.doc) : b.utc = b'.utc := by
  have hfields := doc_dict_inj h rfl (by simp)
  simp only [List.map_cons, List.map_nil, List.cons.injEq, and_true] at hfields
  obtain ⟨hrun, hasOf, hpositions⟩ := hfields
  have hrun := doc_uuid hrun
  have hasOf := doc_datetime hasOf
  have hpositions := map_doc_inj (f := id) (fun _ _ => ProposedPosition.doc_inj) hpositions
  cases b
  cases b'
  simp only [List.map_id] at hrun hasOf hpositions
  simp [utc, *]

theorem PortfolioSnapshot.doc_inj {s s' : PortfolioSnapshot K} (h : s.dump.doc = s'.dump.doc) : s.utc = s'.utc := by
  have hfields := doc_dict_inj h rfl (by simp)
  simp only [List.map_cons, List.map_nil, List.cons.injEq, and_true] at hfields
  obtain ⟨hrun, hasOf, hbook, hcash, hcio⟩ := hfields
  have hrun := doc_uuid hrun
  have hasOf := doc_datetime hasOf
  have hbook := ProposedBook.doc_inj hbook
  have hcash := Subtype.ext (Json.float.inj hcash)
  have hcio : s.cio.map CioDecision.utc = s'.cio.map CioDecision.utc := by
    cases hs : s.cio with
    | none =>
      cases hs' : s'.cio with
      | none => rfl
      | some d' =>
        rw [hs, hs'] at hcio
        exact nomatch hcio
    | some d =>
      cases hs' : s'.cio with
      | none =>
        rw [hs, hs'] at hcio
        exact nomatch hcio
      | some d' =>
        rw [hs, hs'] at hcio
        exact congrArg some (CioDecision.doc_inj hcio)
  simp only [utc, hrun, hasOf, hbook, hcash, hcio]

end Documents
end AsymmetricCommittee
