import AsymmetricCommittee.Evaluation.Anchoring
import AsymmetricCommittee.Theorems.CanonicalCommitment
import AsymmetricCommittee.Theorems.RunStatus

/-! The manifest of an anchor holds the commitment's time in the offset that the time happens to be given in: one instant has
    as many manifests as there are offsets to write it in. -/

namespace AsymmetricCommittee
namespace Anchoring
open IsoTime

/-! ### The text of a time -/

theorem not_mem_isoDate (days : Int) : 'T' ∉ (isoDate days).toList := by
  rw [isoDate, String.toList_ofList]
  have hpad : ∀ width n, 'T' ∉ pad width n := fun width n hmem => by
    obtain ⟨d, hd, hc⟩ := pad_digit hmem
    have hall : ∀ i < 10, 'T' ≠ Nat.digitChar i := by decide
    exact hall d hd hc
  have hyear : 'T' ∉ padYear (civil days).year := by
    unfold padYear
    split
    · exact hpad _ _
    · simp [hpad]
  simp [hpad, hyear]

/-- A date ends where the time begins. -/
theorem isoDate_append_inj {a b : Int} {u v : List Char}
    (h : (isoDate a).toList ++ 'T' :: u = (isoDate b).toList ++ 'T' :: v) : a = b ∧ u = v := by
  have hsplit := congrArg (List.splitOnP (· == 'T')) h
  have hfree (days : Int) : ∀ c ∈ (isoDate days).toList, (c == 'T') = false := fun c hc =>
    beq_eq_false_iff_ne.mpr fun heq => not_mem_isoDate days (heq ▸ hc)
  rw [List.splitOnP_append_cons_of_forall_mem (hfree a) 'T' (by decide),
    List.splitOnP_append_cons_of_forall_mem (hfree b) 'T' (by decide)] at hsplit
  have hdate := (List.cons.inj hsplit).1
  rw [hdate] at h
  exact ⟨isoDate_injective (String.toList_inj.mp hdate), (List.cons.inj (List.append_cancel_left h)).2⟩

/-- The text of a time tells what its clock shows. -/
theorem local_of_isoMicros {t t' o o' : Int} (h : isoMicros t o = isoMicros t' o') : t + o = t' + o' := by
  have hlist := congrArg String.toList h
  simp only [isoMicros, String.toList_append, String.toList_ofList] at hlist
  obtain ⟨hday, htime⟩ := isoDate_append_inj hlist
  have hbounds (x : Int) : 0 ≤ x % 86400000000 ∧ x % 86400000000 < 86400000000 :=
    ⟨Int.emod_nonneg x (by decide), Int.emod_lt_of_pos x (by decide)⟩
  have hx := hbounds (t + o)
  have hy := hbounds (t' + o')
  generalize hu : ((t + o) % 86400000000).toNat = u at htime
  generalize hv : ((t' + o') % 86400000000).toNat = v at htime
  have hclock : ∀ {w : Nat}, w < 86400000000 → (IsoTime.clock (w / 1000000)).length = 8 ∧ (pad 6 (w % 1000000)).length = 6 :=
    fun hw => ⟨length_clock (by omega), length_pad (by omega)⟩
  have hcu := hclock (show u < 86400000000 by omega)
  have hcv := hclock (show v < 86400000000 by omega)
  obtain ⟨hsecond, hfraction⟩ := List.append_inj htime (hcu.1.trans hcv.1.symm)
  obtain ⟨hmicro, -⟩ := List.append_inj (List.cons.inj hfraction).2 (hcu.2.trans hcv.2.symm)
  have hs := clock_injective (by omega) (by omega) hsecond
  have hm := pad_injective 6 hmicro
  omega

/-! ### The manifest -/

theorem toList_loop (bytes : ByteArray) (i : Nat) (r : List UInt8) :
    ByteArray.toList.loop bytes i r = r.reverse ++ bytes.data.toList.drop i := by
  induction hn : bytes.size - i generalizing i r with
  | zero =>
    have hsize : bytes.data.toList.length ≤ i := by
      have hlen : bytes.data.toList.length = bytes.size := rfl
      omega
    rw [ByteArray.toList.loop.eq_def, if_neg (by omega), List.drop_eq_nil_of_le hsize, List.append_nil]
  | succ n ih =>
    have hlt : i < bytes.data.toList.length := by
      have hlen : bytes.data.toList.length = bytes.size := rfl
      omega
    have hget : bytes.get! i = bytes.data.toList[i] := by
      have hlt : i < bytes.data.size := hlt
      exact getElem!_pos bytes.data i hlt
    rw [ByteArray.toList.loop.eq_def, if_pos (by omega), ih (i + 1) _ (by omega), List.reverse_cons, List.append_assoc,
      List.singleton_append, hget, List.cons_getElem_drop_succ]

/-- Texts are told apart by their bytes. -/
theorem utf8_injective : Function.Injective fun text : String => text.toUTF8.toList := by
  intro a b h
  have hdata (text : String) : text.toUTF8.toList = text.toUTF8.data.toList := toList_loop text.toUTF8 0 []
  have h : a.toUTF8.toList = b.toUTF8.toList := h
  rw [hdata, hdata] at h
  exact String.toByteArray_inj.mp (ByteArray.ext (Array.toList_inj.mp h))

section Manifest
variable {K : Type} (F : Json.FloatText K) (runId : UUID) (sha256 : Sha256Hex) {t t' : AwareDatetime}

/-- Manifests of one run and digest agree when their times have one text. -/
theorem anchorManifest_eq : anchorManifest F runId sha256 t = anchorManifest F runId sha256 t' ↔
    isoMicros t.instant t.offset = isoMicros t'.instant t'.offset := by
  constructor
  · intro h
    have hdoc := Json.render_injective F (List.append_cancel_right (String.ofList_injective (utf8_injective h)))
    have hunique : ["v", "run_id", "sha256", "committed_at"].Nodup := by decide
    have hsorted := fun hkeys hnodup => Json.sortBy_obj_inj id hkeys hnodup hdoc
    have hvalues := hsorted rfl hunique
    simp only [List.map_cons, List.map_nil, Json.sortBy, List.cons.injEq, Json.str.injEq, true_and, and_true] at hvalues
    exact hvalues
  · intro h
    unfold anchorManifest
    rw [h]

/-- One instant has one manifest iff it is given in one offset. -/
theorem manifest_iff_offset (h : t.instant = t'.instant) :
    anchorManifest F runId sha256 t = anchorManifest F runId sha256 t' ↔ t.offset = t'.offset := by
  rw [anchorManifest_eq]
  constructor
  · intro htext
    have hlocal := local_of_isoMicros htext
    omega
  · intro hoffset
    rw [h, hoffset]

end Manifest

/-! ### A session time zone -/

/-- The commitment of a run as the attempt that made it has it, and as a session in New York reads it back. -/
theorem manifest_of_session : ∃ t t' : AwareDatetime, t.instant = t'.instant ∧
    anchorManifest decimalText ⟨0⟩ Sink.zeroHex t ≠ anchorManifest decimalText ⟨0⟩ Sink.zeroHex t' := by
  refine ⟨⟨0, 0⟩, ⟨0, -18000000000⟩, rfl, fun h => ?_⟩
  have hlocal := local_of_isoMicros ((anchorManifest_eq decimalText ⟨0⟩ Sink.zeroHex).mp h)
  exact absurd hlocal (by decide)

theorem manifest_of_sessions :
    anchorManifest decimalText ⟨0⟩ Sink.zeroHex ⟨0, 0⟩ = anchorManifest decimalText ⟨0⟩ Sink.zeroHex ⟨0, -18000000000⟩ ↔
      (0 : Int) = -18000000000 :=
  manifest_iff_offset decimalText ⟨0⟩ Sink.zeroHex rfl

end Anchoring
end AsymmetricCommittee
