import BitzPool.EpochSound
import BitzPool.Lib.Update

/-!
# More work never pays less

What an entry earns is its share of the reward out of the total hashpower of its map, rounded down twice.  An entry of a
higher difficulty has at least double the hashpower and raises the total with it, so its own share does not fall and the
shares of the others do not rise; likewise for an entry that is added (`more_work_never_pays_less`).
-/

namespace BitzPool

open Split Update

/-- An entry as the handler writes it for a solution of a difficulty from 12 to 69. -/
structure InternalMessageSubmission.Admitted (sub : InternalMessageSubmission) : Prop where
  min : minDiff ≤ sub.suppliedDiff
  max : sub.suppliedDiff < 70
  real : sub.realHashpower = realHashpowerOf sub.suppliedDiff

instance (sub : InternalMessageSubmission) : Decidable sub.Admitted :=
  decidable_of_iff (minDiff ≤ sub.suppliedDiff ∧ sub.suppliedDiff < 70 ∧
    sub.realHashpower = realHashpowerOf sub.suppliedDiff)
    ⟨fun ⟨hmin, hmax, hreal⟩ => ⟨hmin, hmax, hreal⟩, fun h => ⟨h.min, h.max, h.real⟩⟩

namespace MessageInternalMineSuccess

/-- A message whose totals are computed from its entries, all of which are admitted, and fit in 64 bits. -/
structure Admissible (msg : MessageInternalMineSuccess) : Prop where
  totals : msg.TotalsComputed
  entries : ∀ uuid sub, msg.submissions.lookup uuid = some sub → sub.Admitted
  fits : realHashpowerSum msg.submissions < 2 ^ 64

/-- What the entry of a connection earns, if it has one. -/
def earned (msg : MessageInternalMineSuccess) (uuid : Uuid) : Option UInt64 :=
  (msg.submissions.lookup uuid).bind (earnedRewards msg)

/-- The entry of `uuid` in `msg` earns at most what the entry of `uuid'` in `msg'` earns. -/
def EarnsAtMost (msg : MessageInternalMineSuccess) (uuid : Uuid) (msg' : MessageInternalMineSuccess) (uuid' : Uuid) :
    Prop :=
  ∃ e e', msg.earned uuid = some e ∧ msg'.earned uuid' = some e' ∧ e ≤ e'

/-- The map of `msg'` is that of `msg` with `sub` as the entry of `uuid`. -/
def WithEntry (msg : MessageInternalMineSuccess) (uuid : Uuid) (sub : InternalMessageSubmission)
    (msg' : MessageInternalMineSuccess) : Prop :=
  ∀ k, msg'.submissions.lookup k = if k = uuid then some sub else msg.submissions.lookup k

end MessageInternalMineSuccess

open MessageInternalMineSuccess

variable {msg msg' : MessageInternalMineSuccess} {uuid other : Uuid} {sub sub' : InternalMessageSubmission}

/-! ### Hashpowers -/

theorem InternalMessageSubmission.Admitted.toNat (h : sub.Admitted) :
    sub.realHashpower.toNat = 80 * 2 ^ (sub.suppliedDiff.toNat - 12) := by
  rw [h.real]
  exact realHashpowerOf_toNat h.min h.max

theorem InternalMessageSubmission.Admitted.pos (h : sub.Admitted) : 0 < sub.realHashpower.toNat := by
  rw [h.toNat]
  exact Nat.mul_pos (by decide) (Nat.two_pow_pos _)

/-- A higher difficulty has no lower hashpower. -/
theorem InternalMessageSubmission.Admitted.mono (h : sub.Admitted) (h' : sub'.Admitted)
    (hle : sub.suppliedDiff ≤ sub'.suppliedDiff) : sub.realHashpower.toNat ≤ sub'.realHashpower.toNat := by
  rw [h.toNat, h'.toNat]
  have hdiff : sub.suppliedDiff.toNat ≤ sub'.suppliedDiff.toNat := UInt32.le_iff_toNat_le.1 hle
  exact Nat.mul_le_mul_left 80 (Nat.pow_le_pow_right (by decide) (by omega))

/-! ### Totals -/

theorem realHashpowerSum_of_perm {subs subs' : Submissions} (h : subs.entries.Perm subs'.entries) :
    realHashpowerSum subs = realHashpowerSum subs' :=
  (h.map _).sum_eq

/-- The total is the hashpower of an entry and that of the others. -/
theorem realHashpowerSum_eq_add_erase {subs : Submissions} (h : subs.lookup uuid = some sub) :
    realHashpowerSum subs = sub.realHashpower.toNat + realHashpowerSum (subs.erase uuid) := by
  have hsum := ((perm_cons_erase h).map fun e : (_ : Uuid) × InternalMessageSubmission => e.2.realHashpower.toNat).sum_eq
  rwa [List.map_cons, List.sum_cons] at hsum

theorem realHashpowerSum_eq_erase {subs : Submissions} (h : subs.lookup uuid = none) :
    realHashpowerSum subs = realHashpowerSum (subs.erase uuid) := by
  refine realHashpowerSum_of_perm (perm_of_lookup fun k => ?_)
  by_cases hk : k = uuid
  · rw [hk, h, AList.lookup_erase]
  · rw [AList.lookup_erase_ne hk]

/-- The other entries of a map stay when one is replaced or added. -/
theorem MessageInternalMineSuccess.WithEntry.sum_erase (h : msg.WithEntry uuid sub' msg') :
    realHashpowerSum (msg'.submissions.erase uuid) = realHashpowerSum (msg.submissions.erase uuid) := by
  refine realHashpowerSum_of_perm (perm_of_lookup fun k => ?_)
  by_cases hk : k = uuid
  · rw [hk, AList.lookup_erase, AList.lookup_erase]
  · rw [AList.lookup_erase_ne hk, AList.lookup_erase_ne hk, h k, if_neg hk]

theorem MessageInternalMineSuccess.WithEntry.lookup (h : msg.WithEntry uuid sub' msg') :
    msg'.submissions.lookup uuid = some sub' := by
  rw [h uuid, if_pos rfl]

theorem MessageInternalMineSuccess.WithEntry.lookup_other (h : msg.WithEntry uuid sub' msg') (hne : other ≠ uuid) :
    msg'.submissions.lookup other = msg.submissions.lookup other := by
  rw [h other, if_neg hne]

/-- With a new entry the total does not fall. -/
theorem MessageInternalMineSuccess.WithEntry.sum_le (h : msg.WithEntry uuid sub' msg')
    (hle : ∀ sub, msg.submissions.lookup uuid = some sub → sub.realHashpower.toNat ≤ sub'.realHashpower.toNat) :
    realHashpowerSum msg.submissions ≤ realHashpowerSum msg'.submissions := by
  rw [realHashpowerSum_eq_add_erase h.lookup, h.sum_erase]
  rcases hlookup : msg.submissions.lookup uuid with _ | sub
  · rw [realHashpowerSum_eq_erase hlookup]
    exact Nat.le_add_left _ _
  · rw [realHashpowerSum_eq_add_erase hlookup]
    exact Nat.add_le_add_right (hle sub hlookup) _

/-! ### Earnings -/

namespace MessageInternalMineSuccess

/-- What an entry earns. -/
theorem Admissible.earned_eq (h : msg.Admissible) (hlookup : msg.submissions.lookup uuid = some sub) :
    ∃ e, msg.earned uuid = some e ∧
      e.toNat = share percentScale (realHashpowerSum msg.submissions) msg.totalRewards.toNat sub.realHashpower.toNat := by
  have hmem : (⟨uuid, sub⟩ : (_ : Uuid) × InternalMessageSubmission) ∈ msg.submissions.entries :=
    AList.mem_lookup_iff.1 hlookup
  have hpos : ∀ e ∈ msg.submissions.entries, 0 < e.2.realHashpower := by
    intro e he
    have hadmitted := h.entries e.1 e.2 (AList.mem_lookup_iff.2 he)
    exact UInt64.lt_iff_toNat_lt.2 hadmitted.pos
  obtain ⟨h1, h2⟩ := totals_ne_zero h.totals hpos h.fits hmem
  obtain ⟨e, he, -⟩ := earnedRewards_of_exact (splitExact h.totals h.fits h1 h2 hmem)
  refine ⟨e, ?_, earnedRewards_eq_share h.totals h.fits hmem he⟩
  rw [earned, hlookup]
  exact he

/-- An entry whose hashpower is no lower, out of the same map, earns no less. -/
theorem Admissible.earnsAtMost_within (h : msg.Admissible) (hlookup : msg.submissions.lookup uuid = some sub)
    (hlookup' : msg.submissions.lookup other = some sub') (hle : sub.realHashpower.toNat ≤ sub'.realHashpower.toNat) :
    msg.EarnsAtMost uuid msg other := by
  obtain ⟨e, he, hshare⟩ := h.earned_eq hlookup
  obtain ⟨e', he', hshare'⟩ := h.earned_eq hlookup'
  refine ⟨e, e', he, he', UInt64.le_iff_toNat_le.2 ?_⟩
  rw [hshare, hshare']
  exact share_mono_weight _ _ _ hle

/-- Out of a map with a total that is no lower, the same entry earns no more. -/
theorem Admissible.earnsAtMost_other (h : msg.Admissible) (h' : msg'.Admissible)
    (hR : msg'.totalRewards = msg.totalRewards) (hsum : realHashpowerSum msg.submissions ≤ realHashpowerSum msg'.submissions)
    (hlookup : msg.submissions.lookup other = some sub) (hlookup' : msg'.submissions.lookup other = some sub) :
    msg'.EarnsAtMost other msg other := by
  obtain ⟨e, he, hshare⟩ := h.earned_eq hlookup
  obtain ⟨e', he', hshare'⟩ := h'.earned_eq hlookup'
  have hpos : 0 < realHashpowerSum msg.submissions := by
    have hsub := (h.entries other sub hlookup).pos
    rw [realHashpowerSum_eq_add_erase hlookup]
    omega
  refine ⟨e', e, he', he, UInt64.le_iff_toNat_le.2 ?_⟩
  rw [hshare, hshare', hR]
  exact share_anti_total _ _ _ hpos hsum

/-- An entry that is replaced by one of no lower hashpower earns no less. -/
theorem Admissible.earnsAtMost_own (h : msg.Admissible) (h' : msg'.Admissible)
    (hR : msg'.totalRewards = msg.totalRewards) (hwith : msg.WithEntry uuid sub' msg')
    (hlookup : msg.submissions.lookup uuid = some sub) (hle : sub.realHashpower.toNat ≤ sub'.realHashpower.toNat) :
    msg.EarnsAtMost uuid msg' uuid := by
  obtain ⟨e, he, hshare⟩ := h.earned_eq hlookup
  obtain ⟨e', he', hshare'⟩ := h'.earned_eq hwith.lookup
  refine ⟨e, e', he, he', UInt64.le_iff_toNat_le.2 ?_⟩
  rw [hshare, hshare', hR, realHashpowerSum_eq_add_erase hlookup, realHashpowerSum_eq_add_erase hwith.lookup,
    hwith.sum_erase]
  exact share_mono_own _ _ _ (h.entries uuid sub hlookup).pos hle

end MessageInternalMineSuccess

/-- For a fixed reward: an entry that is replaced by one of a higher difficulty earns no less, and the others no more; when
an entry is added the others earn no more; and in one map a higher difficulty earns no less, an equal one the same. -/
theorem more_work_never_pays_less (msg : MessageInternalMineSuccess) (h : msg.Admissible) :
    (∀ msg' : MessageInternalMineSuccess, msg'.Admissible → msg'.totalRewards = msg.totalRewards →
      ∀ uuid sub', msg.WithEntry uuid sub' msg' →
        (∀ sub, msg.submissions.lookup uuid = some sub → sub.suppliedDiff < sub'.suppliedDiff →
          msg.EarnsAtMost uuid msg' uuid ∧
            ∀ other ∈ msg.submissions, other ≠ uuid → msg'.EarnsAtMost other msg other) ∧
        (uuid ∉ msg.submissions → ∀ other ∈ msg.submissions, msg'.EarnsAtMost other msg other)) ∧
      ∀ uuid uuid' sub sub', msg.submissions.lookup uuid = some sub → msg.submissions.lookup uuid' = some sub' →
        (sub.suppliedDiff < sub'.suppliedDiff → msg.EarnsAtMost uuid msg uuid') ∧
          (sub.suppliedDiff = sub'.suppliedDiff → ∃ e, msg.earned uuid = some e ∧ msg.earned uuid' = some e) := by
  constructor
  · intro msg' h' hR uuid sub' hwith
    have hadmitted' : sub'.Admitted := h'.entries uuid sub' hwith.lookup
    -- the others keep their entries, so only the total matters to them
    have hothers : realHashpowerSum msg.submissions ≤ realHashpowerSum msg'.submissions →
        ∀ other ∈ msg.submissions, other ≠ uuid → msg'.EarnsAtMost other msg other := by
      intro hsum other hother hne
      obtain ⟨sub, hsub⟩ := Option.isSome_iff_exists.1 (AList.lookup_isSome.2 hother)
      exact h.earnsAtMost_other h' hR hsum hsub ((hwith.lookup_other hne).trans hsub)
    constructor
    · intro sub hsub hlt
      have hle : sub.realHashpower.toNat ≤ sub'.realHashpower.toNat :=
        (h.entries uuid sub hsub).mono hadmitted' (UInt32.le_of_lt hlt)
      refine ⟨h.earnsAtMost_own h' hR hwith hsub hle, hothers (hwith.sum_le fun sub₀ hsub₀ => ?_)⟩
      rw [hsub] at hsub₀
      cases hsub₀
      exact hle
    · intro hnew other hother
      have hnone : msg.submissions.lookup uuid = none := AList.lookup_eq_none.2 hnew
      have hne : other ≠ uuid := by
        rintro rfl
        exact hnew hother
      refine hothers (hwith.sum_le fun sub₀ hsub₀ => ?_) other hother hne
      rw [hnone] at hsub₀
      cases hsub₀
  · intro uuid uuid' sub sub' hsub hsub'
    have hadmitted := h.entries uuid sub hsub
    have hadmitted' := h.entries uuid' sub' hsub'
    refine ⟨fun hlt => h.earnsAtMost_within hsub hsub' (hadmitted.mono hadmitted' (UInt32.le_of_lt hlt)), fun heq => ?_⟩
    obtain ⟨e, he, hshare⟩ := h.earned_eq hsub
    obtain ⟨e', he', hshare'⟩ := h.earned_eq hsub'
    have hreal : sub.realHashpower = sub'.realHashpower := by
      rw [hadmitted.real, hadmitted'.real, heq]
    have hsame : e = e' := UInt64.toNat_inj.1 (by rw [hshare, hshare', hreal])
    exact ⟨e, he, hsame ▸ he'⟩

/-- A message with the given entry of connection 1 and one of difficulty 12 of connection 2. -/
def exampleTwoEntries (sub : InternalMessageSubmission) : MessageInternalMineSuccess :=
  { exampleRound with submissions := (AList.singleton 2 (exampleSubmission 2)).insert 1 sub }.message 1000 1

def exampleHarder : InternalMessageSubmission where
  minerId := 1
  suppliedDiff := 14
  suppliedNonce := 1
  hashpower := 320
  realHashpower := 320
  capped := by decide

theorem more_work_never_pays_less_example :
    (exampleTwoEntries (exampleSubmission 1)).EarnsAtMost 1 (exampleTwoEntries exampleHarder) 1 ∧
      (exampleTwoEntries (exampleSubmission 1)).earned 1 = some 475 ∧
        (exampleTwoEntries exampleHarder).earned 1 = some 760 := by
  have hadmissible : ∀ sub : InternalMessageSubmission, (∀ e ∈ (exampleTwoEntries sub).submissions.entries, e.2.Admitted) →
      realHashpowerSum (exampleTwoEntries sub).submissions < 2 ^ 64 → (exampleTwoEntries sub).Admissible :=
    fun sub hentries hfits => ⟨rfl, fun uuid sub h => hentries ⟨uuid, sub⟩ (AList.mem_lookup_iff.1 h), hfits⟩
  have h := hadmissible (exampleSubmission 1) (by decide) (by decide)
  have h' := hadmissible exampleHarder (by decide) (by decide)
  have hwith : (exampleTwoEntries (exampleSubmission 1)).WithEntry 1 exampleHarder (exampleTwoEntries exampleHarder) := by
    intro k
    by_cases hk : k = 1
    · rw [if_pos hk, hk]
      exact AList.lookup_insert _
    · rw [if_neg hk]
      exact (AList.lookup_insert_ne hk).trans (AList.lookup_insert_ne hk).symm
  exact ⟨(((more_work_never_pays_less _ h).1 _ h' rfl 1 exampleHarder hwith).1 _ rfl (by decide)).1, by decide, by decide⟩

end BitzPool
