import BitzPool.PayoutTask

/-!
# What a mined reward pays

The payout pushes its rows inside the loop over the live connections, so an entry of the snapshot is paid as often as its
uuid is connected when the message is processed (`payoutRows_eq_some`).  With the totals the payout task computes, every
entry earns its proportion of the reward rounded down, all together never more than the reward (`reward_split`).
-/

namespace BitzPool

open Split

/-! ### The rows of a pass -/

theorem earnedRewards_eq_none {msg : MessageInternalMineSuccess} {sub : InternalMessageSubmission} :
    earnedRewards msg sub = none ↔ msg.totalHashpower.toNat = 0 ∨ msg.totalRealHashpower.toNat = 0 := by
  by_cases h : msg.totalHashpower.toNat = 0 <;> by_cases h' : msg.totalRealHashpower.toNat = 0 <;>
    simp [earnedRewards, hashpowerPercent, saturatingDiv, percentScale, h, h']

/-- The rows of several passes, one after the other. -/
def PayoutRows.concat (passes : List PayoutRows) : PayoutRows :=
  ⟨passes.flatMap earnings, passes.flatMap rewards, passes.flatMap submissions⟩

private theorem append_concat_cons (rows p : PayoutRows) (passes : List PayoutRows) :
    (rows.append p).append (PayoutRows.concat passes) = rows.append (PayoutRows.concat (p :: passes)) := by
  simp [PayoutRows.append, PayoutRows.concat]

private theorem foldl_append (rows : PayoutRows) (passes : List PayoutRows) :
    passes.foldl PayoutRows.append rows = rows.append (PayoutRows.concat passes) := by
  induction passes generalizing rows with
  | nil => simp [PayoutRows.append, PayoutRows.concat]
  | cons p passes ih => rw [List.foldl_cons, ih, append_concat_cons]

private theorem nil_append (rows : PayoutRows) : PayoutRows.append ⟨[], [], []⟩ rows = rows := rfl

/-- A pass pushes one row of each kind for every connection with the entry's uuid. -/
theorem submissionRows_eq_some {poolId : RowId} {msg : MessageInternalMineSuccess} {socks : Sockets} {uuid : Uuid}
    {sub : InternalMessageSubmission} {rows : PayoutRows} :
    submissionRows poolId msg socks uuid sub = some rows ↔
      ∃ earned, earnedRewards msg sub = some earned ∧
        rows = PayoutRows.concat ((connectionsOf socks uuid).map (connectionRows poolId msg sub earned)) := by
  simp only [submissionRows, Option.map_eq_some_iff, foldl_append, nil_append]
  exact exists_congr fun earned => and_congr_right fun _ => eq_comm

/-- The rows of a pass, kind by kind. -/
theorem concat_connectionRows (poolId : RowId) (msg : MessageInternalMineSuccess)
    (sub : InternalMessageSubmission) (earned : UInt64) (conns : List AppClientConnection) :
    ((PayoutRows.concat (conns.map (connectionRows poolId msg sub earned))).earnings.map
        fun e => (e.minerId, e.amount)) = conns.map (fun _ => (sub.minerId, earned)) ∧
      (PayoutRows.concat (conns.map (connectionRows poolId msg sub earned))).rewards =
        conns.map (fun _ => ⟨sub.minerId, earned⟩) ∧
      (PayoutRows.concat (conns.map (connectionRows poolId msg sub earned))).submissions.map
        InsertSubmission.minerId = conns.map fun _ => sub.minerId := by
  simp only [PayoutRows.concat, connectionRows, List.flatMap_map, ← List.map_eq_flatMap, List.map_map]
  exact ⟨rfl, trivial, rfl⟩

/-- The passes of the loop over a list of entries. -/
def Passes (poolId : RowId) (msg : MessageInternalMineSuccess) (socks : Sockets)
    (entries : List ((_ : Uuid) × InternalMessageSubmission)) (passes : List PayoutRows) : Prop :=
  List.Forall₂ (fun e rows => submissionRows poolId msg socks e.1 e.2 = some rows) entries passes

private theorem foldlM_passes {poolId : RowId} {msg : MessageInternalMineSuccess} {socks : Sockets}
    {entries : List ((_ : Uuid) × InternalMessageSubmission)} {start rows : PayoutRows} :
    entries.foldlM (fun rows e => (submissionRows poolId msg socks e.1 e.2).map rows.append) start = some rows ↔
      ∃ passes, Passes poolId msg socks entries passes ∧ rows = start.append (PayoutRows.concat passes) := by
  induction entries generalizing start with
  | nil => simp [Passes, PayoutRows.append, PayoutRows.concat, eq_comm]
  | cons e entries ih =>
    simp only [List.foldlM_cons, Option.bind_eq_bind, Option.bind_eq_some_iff, Option.map_eq_some_iff, ih]
    constructor
    · rintro ⟨_, ⟨p, hp, rfl⟩, passes, hpasses, rfl⟩
      exact ⟨p :: passes, .cons hp hpasses, append_concat_cons start p passes⟩
    · rintro ⟨_, hpasses, rfl⟩
      cases hpasses with
      | @cons _ p _ passes hp hpasses =>
        exact ⟨_, ⟨p, hp, rfl⟩, passes, hpasses, (append_concat_cons start p passes).symm⟩

theorem payoutRows_eq_some {poolId : RowId} {msg : MessageInternalMineSuccess} {socks : Sockets}
    {rows : PayoutRows} :
    payoutRows poolId msg socks = some rows ↔
      ∃ passes, Passes poolId msg socks msg.submissions.entries passes ∧ rows = PayoutRows.concat passes := by
  simp only [payoutRows, foldlM_passes, nil_append]

/-- The loop over the submissions panics only where a division does. -/
theorem payoutRows_isSome {poolId : RowId} {msg : MessageInternalMineSuccess} {socks : Sockets}
    (h : ∀ e ∈ msg.submissions.entries, (earnedRewards msg e.2).isSome) : (payoutRows poolId msg socks).isSome := by
  have hpass : ∀ e ∈ msg.submissions.entries, ∃ rows, submissionRows poolId msg socks e.1 e.2 = some rows := by
    intro e he
    obtain ⟨earned, hearned⟩ := Option.isSome_iff_exists.1 (h e he)
    exact ⟨_, submissionRows_eq_some.2 ⟨earned, hearned, rfl⟩⟩
  obtain ⟨passes, hpasses⟩ : ∃ passes, Passes poolId msg socks msg.submissions.entries passes := by
    unfold Passes
    generalize msg.submissions.entries = entries at hpass
    induction entries with
    | nil => exact ⟨[], .nil⟩
    | cons e entries ih =>
      obtain ⟨rows, hrows⟩ := hpass e (List.mem_cons_self ..)
      obtain ⟨passes, hpasses⟩ := ih fun e' he' => hpass e' (List.mem_cons_of_mem _ he')
      exact ⟨rows :: passes, .cons hrows hpasses⟩
  exact Option.isSome_iff_exists.2 ⟨_, payoutRows_eq_some.2 ⟨passes, hpasses, rfl⟩⟩

/-! ### The split -/

/-- The real hashpowers of a snapshot add up to this number. -/
def realHashpowerSum (submissions : Submissions) : ℕ :=
  (submissions.entries.map fun e => e.2.realHashpower.toNat).sum

private def hashpowerSum (submissions : Submissions) : ℕ :=
  (submissions.entries.map fun e => e.2.hashpower.toNat).sum

private theorem foldl_totals (l : List ((_ : Uuid) × InternalMessageSubmission)) (t : UInt64 × UInt64) :
    (l.foldl (fun t e => (t.1 + e.2.hashpower, t.2 + e.2.realHashpower)) t).1.toNat =
        (t.1.toNat + (l.map fun e => e.2.hashpower.toNat).sum) % 2 ^ 64 ∧
      (l.foldl (fun t e => (t.1 + e.2.hashpower, t.2 + e.2.realHashpower)) t).2.toNat =
        (t.2.toNat + (l.map fun e => e.2.realHashpower.toNat).sum) % 2 ^ 64 := by
  induction l generalizing t with
  | nil =>
    have h1 := t.1.toNat_lt
    have h2 := t.2.toNat_lt
    simp only [List.foldl_nil, List.map_nil, List.sum_nil]
    omega
  | cons e l ih =>
    obtain ⟨ih1, ih2⟩ := ih (t.1 + e.2.hashpower, t.2 + e.2.realHashpower)
    simp only [List.foldl_cons, List.map_cons, List.sum_cons, ih1, ih2, UInt64.toNat_add]
    omega

theorem hashpower_toNat (sub : InternalMessageSubmission) :
    sub.hashpower.toNat = min sub.realHashpower.toNat maxCalculatedHashpower.toNat := by
  rw [sub.capped]
  change (if sub.realHashpower ≤ maxCalculatedHashpower then sub.realHashpower
    else maxCalculatedHashpower).toNat = _
  split
  · next h => rw [min_eq_left (UInt64.le_iff_toNat_le.1 h)]
  · next h => rw [min_eq_right (Nat.le_of_lt (UInt64.lt_iff_toNat_lt.1 (UInt64.not_le.1 h)))]

/-- While the sum of the real hashpowers fits in 64 bits, the accumulators are the sums. -/
theorem hashpowerTotals_toNat {submissions : Submissions} (h : realHashpowerSum submissions < 2 ^ 64) :
    (hashpowerTotals submissions).1.toNat = hashpowerSum submissions ∧
      (hashpowerTotals submissions).2.toNat = realHashpowerSum submissions := by
  have hle : hashpowerSum submissions ≤ realHashpowerSum submissions :=
    List.sum_le_sum fun e _ => (hashpower_toNat e.2).trans_le (min_le_left _ _)
  obtain ⟨h1, h2⟩ := foldl_totals submissions.entries (0, 0)
  constructor
  · rw [hashpowerTotals, h1]
    exact (congrArg (· % 2 ^ 64) (Nat.zero_add _)).trans (Nat.mod_eq_of_lt (hle.trans_lt h))
  · rw [hashpowerTotals, h2]
    exact (congrArg (· % 2 ^ 64) (Nat.zero_add _)).trans (Nat.mod_eq_of_lt h)

/-- The proportion of a submission in the code's scale, without saturation. -/
def realPercent (msg : MessageInternalMineSuccess) (sub : InternalMessageSubmission) : ℕ :=
  sub.realHashpower.toNat * percentScale / msg.totalRealHashpower.toNat

/-- No step of `earnedRewards` divides by zero, saturates or truncates. -/
def SplitExact (msg : MessageInternalMineSuccess) (sub : InternalMessageSubmission) : Prop :=
  msg.totalHashpower.toNat ≠ 0 ∧ msg.totalRealHashpower.toNat ≠ 0 ∧
    sub.hashpower.toNat * percentScale ≤ u128Max ∧ sub.realHashpower.toNat * percentScale ≤ u128Max ∧
    realPercent msg sub * msg.totalRewards.toNat ≤ u128Max ∧
    realPercent msg sub * msg.totalRewards.toNat / percentScale < 2 ^ 64

theorem earnedRewards_of_exact {msg : MessageInternalMineSuccess} {sub : InternalMessageSubmission}
    (h : SplitExact msg sub) :
    ∃ earned, earnedRewards msg sub = some earned ∧
      earned.toNat = share percentScale msg.totalRealHashpower.toNat msg.totalRewards.toNat
        sub.realHashpower.toNat := by
  obtain ⟨h1, h2, h3, h4, h5, h6⟩ := h
  refine ⟨UInt64.ofNat (realPercent msg sub * msg.totalRewards.toNat / percentScale), ?_, ?_⟩
  · have hscale : percentScale ≠ 0 := by decide
    simp only [earnedRewards, hashpowerPercent, saturatingDiv, saturatingMul, if_neg h1, if_neg h2, if_neg hscale,
      min_eq_left h4, Option.bind_eq_bind, Option.bind_some, Option.pure_def]
    rw [← realPercent, min_eq_left h5]
  · rw [UInt64.toNat_ofNat', Nat.mod_eq_of_lt h6]
    rfl

/-- The totals of a message are those the payout task computes from its snapshot. -/
def MessageInternalMineSuccess.TotalsComputed (msg : MessageInternalMineSuccess) : Prop :=
  (msg.totalHashpower, msg.totalRealHashpower) = hashpowerTotals msg.submissions

theorem Round.message_totals (r : Round) (full : UInt64) (id : RowId) : (r.message full id).TotalsComputed := rfl

private theorem le_sum_of_mem {l : List ((_ : Uuid) × InternalMessageSubmission)} {e}
    (he : e ∈ l) (f : InternalMessageSubmission → ℕ) : f e.2 ≤ (l.map fun e => f e.2).sum :=
  List.single_le_sum (fun _ _ => Nat.zero_le _) _ (List.mem_map_of_mem (f := fun e => f e.2) he)

/-- With computed totals, no step of the split is inexact. -/
theorem splitExact {msg : MessageInternalMineSuccess} (hT : msg.TotalsComputed)
    (hsum : realHashpowerSum msg.submissions < 2 ^ 64) (h1 : msg.totalHashpower.toNat ≠ 0)
    (h2 : msg.totalRealHashpower.toNat ≠ 0) {e} (he : e ∈ msg.submissions.entries) : SplitExact msg e.2 := by
  have t2 : msg.totalRealHashpower.toNat = realHashpowerSum msg.submissions := by
    rw [← (hashpowerTotals_toNat hsum).2, ← hT]
  have hle := le_sum_of_mem he fun sub => sub.realHashpower.toNat
  have hpercent : realPercent msg e.2 ≤ percentScale := by
    unfold realPercent
    apply Nat.div_le_of_le_mul
    rw [t2]
    exact Nat.mul_le_mul_right _ hle
  have hprod := Nat.mul_le_mul hpercent (Nat.le_of_lt msg.totalRewards.toNat_lt)
  have hlt := e.2.hashpower.toNat_lt
  have hlt' := e.2.realHashpower.toNat_lt
  refine ⟨h1, h2, ?_, ?_, ?_, ?_⟩
  · simp only [percentScale, u128Max]
    omega
  · simp only [percentScale, u128Max]
    omega
  · refine hprod.trans ?_
    simp [percentScale, u128Max]
  · have := msg.totalRewards.toNat_lt
    exact (Nat.div_le_of_le_mul (Nat.mul_le_mul_right _ hpercent)).trans_lt this

/-- What an entry earns, when the payout does not panic. -/
theorem earnedRewards_eq_share {msg : MessageInternalMineSuccess} (hT : msg.TotalsComputed)
    (hsum : realHashpowerSum msg.submissions < 2 ^ 64) {e} (he : e ∈ msg.submissions.entries) {earned : UInt64}
    (h : earnedRewards msg e.2 = some earned) :
    earned.toNat = share percentScale (realHashpowerSum msg.submissions) msg.totalRewards.toNat
      e.2.realHashpower.toNat := by
  have hne : ¬ (msg.totalHashpower.toNat = 0 ∨ msg.totalRealHashpower.toNat = 0) := by
    intro h0
    rw [earnedRewards_eq_none.2 h0] at h
    cases h
  rw [not_or] at hne
  obtain ⟨earned', h', hshare⟩ := earnedRewards_of_exact (splitExact hT hsum hne.1 hne.2 he)
  rw [h] at h'
  cases h'
  rw [hshare, ← (hashpowerTotals_toNat hsum).2, ← hT]

/-- An entry with a hashpower makes the totals of a snapshot positive. -/
theorem hashpowerTotals_ne_zero {submissions : Submissions}
    (hpos : ∀ e ∈ submissions.entries, 0 < e.2.realHashpower) (hsum : realHashpowerSum submissions < 2 ^ 64) {e}
    (he : e ∈ submissions.entries) :
    (hashpowerTotals submissions).1.toNat ≠ 0 ∧ (hashpowerTotals submissions).2.toNat ≠ 0 := by
  obtain ⟨t1, t2⟩ := hashpowerTotals_toNat hsum
  have hreal : 0 < e.2.realHashpower.toNat := UInt64.lt_iff_toNat_lt.1 (hpos e he)
  have hhash : 0 < e.2.hashpower.toNat := by
    rw [hashpower_toNat]
    exact lt_min hreal (by decide)
  have hle1 := le_sum_of_mem he fun sub => sub.hashpower.toNat
  have hle2 := le_sum_of_mem he fun sub => sub.realHashpower.toNat
  rw [t1, t2, hashpowerSum, realHashpowerSum]
  omega

theorem totals_ne_zero {msg : MessageInternalMineSuccess} (hT : msg.TotalsComputed)
    (hpos : ∀ e ∈ msg.submissions.entries, 0 < e.2.realHashpower)
    (hsum : realHashpowerSum msg.submissions < 2 ^ 64) {e} (he : e ∈ msg.submissions.entries) :
    msg.totalHashpower.toNat ≠ 0 ∧ msg.totalRealHashpower.toNat ≠ 0 := by
  have h := hashpowerTotals_ne_zero hpos hsum he
  rw [← hT] at h
  exact h

/-- The reward split: every entry earns its proportion of the reward, rounded down by less than a millionth of the
reward and a unit, with no step inexact; the earnings add up to at most the reward and leave at most that much per
entry over. -/
theorem reward_split {msg : MessageInternalMineSuccess} (hT : msg.TotalsComputed)
    (hne : msg.submissions.entries ≠ []) (hpos : ∀ e ∈ msg.submissions.entries, 0 < e.2.realHashpower)
    (hsum : realHashpowerSum msg.submissions < 2 ^ 64) :
    (∀ e ∈ msg.submissions.entries, SplitExact msg e.2 ∧ ∃ earned, earnedRewards msg e.2 = some earned ∧
      (msg.totalRewards.toNat : ℚ) * e.2.realHashpower.toNat / realHashpowerSum msg.submissions -
          msg.totalRewards.toNat / 10 ^ 6 - 1 < earned.toNat ∧
      (earned.toNat : ℚ) ≤
        (msg.totalRewards.toNat : ℚ) * e.2.realHashpower.toNat / realHashpowerSum msg.submissions) ∧
      (msg.submissions.entries.map fun e => ((earnedRewards msg e.2).getD 0).toNat).sum ≤ msg.totalRewards.toNat ∧
      (msg.totalRewards.toNat : ℚ) -
          ((msg.submissions.entries.map fun e => ((earnedRewards msg e.2).getD 0).toNat).sum : ℕ) ≤
        msg.submissions.entries.length * ((msg.totalRewards.toNat : ℚ) / 10 ^ 6 + 1) := by
  have hq : 0 < percentScale := by decide
  have hscale : ((percentScale : ℕ) : ℚ) = 10 ^ 6 := by norm_num [percentScale]
  have hT2 : msg.totalRealHashpower.toNat = realHashpowerSum msg.submissions := by
    rw [← (hashpowerTotals_toNat hsum).2, ← hT]
  have hW : 0 < realHashpowerSum msg.submissions := by
    obtain ⟨e, he⟩ := List.exists_mem_of_ne_nil _ hne
    have h1 := le_sum_of_mem he fun sub => sub.realHashpower.toNat
    have h2 : 0 < e.2.realHashpower.toNat := UInt64.lt_iff_toNat_lt.1 (hpos e he)
    exact h2.trans_le h1
  have hexact : ∀ e ∈ msg.submissions.entries, SplitExact msg e.2 := by
    intro e he
    obtain ⟨h1, h2⟩ := totals_ne_zero hT hpos hsum he
    exact splitExact hT hsum h1 h2 he
  have hearned : ∀ e ∈ msg.submissions.entries, ∃ earned, earnedRewards msg e.2 = some earned ∧
      earned.toNat = share percentScale (realHashpowerSum msg.submissions) msg.totalRewards.toNat
        e.2.realHashpower.toNat := by
    intro e he
    rw [← hT2]
    exact earnedRewards_of_exact (hexact e he)
  have hmap : (msg.submissions.entries.map fun e => ((earnedRewards msg e.2).getD 0).toNat) =
      msg.submissions.entries.map fun e => share percentScale (realHashpowerSum msg.submissions)
        msg.totalRewards.toNat e.2.realHashpower.toNat := by
    refine List.map_congr_left fun e he => ?_
    obtain ⟨earned, h1, h2⟩ := hearned e he
    rw [h1, Option.getD_some, h2]
  have hweights : (msg.submissions.entries.map fun e => e.2.realHashpower.toNat).sum =
      realHashpowerSum msg.submissions := rfl
  rw [hmap]
  refine ⟨fun e he => ⟨hexact e he, ?_⟩, ?_, ?_⟩
  · obtain ⟨earned, h1, h2⟩ := hearned e he
    refine ⟨earned, h1, ?_, ?_⟩
    · rw [h2, ← hscale]
      exact lt_share hq hW msg.totalRewards.toNat e.2.realHashpower.toNat
    · rw [h2]
      exact share_le hq hW msg.totalRewards.toNat e.2.realHashpower.toNat
  · exact sum_share_le hq msg.totalRewards.toNat msg.submissions.entries _ hweights
  · rw [← hscale]
    exact sub_sum_share_le hq hW msg.totalRewards.toNat msg.submissions.entries _ hweights

theorem reward_split_example :
    ((exampleRound.message 1000 1).submissions.entries.map
      fun e => ((earnedRewards (exampleRound.message 1000 1) e.2).getD 0).toNat).sum ≤ 950 :=
  (reward_split (exampleRound.message_totals 1000 1) (by decide) (by decide) (by decide)).2.1

/-! ### Credits and commission together -/

theorem connectionsOf_length_le {socks : Sockets} (h : UuidsUnique socks) (uuid : Uuid) :
    (connectionsOf socks uuid).length ≤ 1 := by
  have hcount := List.nodup_iff_count_le_one.1 h uuid
  rw [List.count, List.countP_map, List.countP_eq_length_filter] at hcount
  rw [connectionsOf, List.filter_map, List.length_map]
  simp only [Function.comp_def, beq_eq_decide] at hcount ⊢
  exact hcount

private theorem rewards_le {poolId : RowId} {msg : MessageInternalMineSuccess} {socks : Sockets}
    (hu : UuidsUnique socks) (hT : msg.TotalsComputed) (hsum : realHashpowerSum msg.submissions < 2 ^ 64)
    {entries : List ((_ : Uuid) × InternalMessageSubmission)} (hsub : ∀ e ∈ entries, e ∈ msg.submissions.entries)
    {passes : List PayoutRows} (h : Passes poolId msg socks entries passes) :
    ((PayoutRows.concat passes).rewards.map fun u => u.balance.toNat).sum ≤
      (entries.map fun e => share percentScale (realHashpowerSum msg.submissions) msg.totalRewards.toNat
        e.2.realHashpower.toNat).sum := by
  induction h with
  | nil => exact Nat.le_refl _
  | @cons e p entries passes hp _ ih =>
    rw [List.forall_mem_cons] at hsub
    obtain ⟨earned, hearned, rfl⟩ := submissionRows_eq_some.1 hp
    have hshare := earnedRewards_eq_share hT hsum hsub.1 hearned
    have hone := connectionsOf_length_le hu e.1
    have hpass : ((PayoutRows.concat ((connectionsOf socks e.1).map
        (connectionRows poolId msg e.2 earned))).rewards.map fun u => u.balance.toNat).sum ≤ earned.toNat := by
      rw [(concat_connectionRows ..).2.1, List.map_map]
      calc ((connectionsOf socks e.1).map fun _ => earned.toNat).sum
          = (connectionsOf socks e.1).length * earned.toNat := by simp
        _ ≤ 1 * earned.toNat := Nat.mul_le_mul_right _ hone
        _ = earned.toNat := Nat.one_mul _
    have hrest := ih hsub.2
    simp only [PayoutRows.concat, List.flatMap_cons, List.map_append, List.sum_append, List.map_cons,
      List.sum_cons] at hpass hrest ⊢
    omega

/-- With distinct uuids, the credits of a payout add up to at most the reward less the commission. -/
theorem payout_credits_le {poolId : RowId} {msg : MessageInternalMineSuccess} {socks : Sockets} {rows : PayoutRows}
    (hu : UuidsUnique socks) (hT : msg.TotalsComputed) (hsum : realHashpowerSum msg.submissions < 2 ^ 64)
    (h : payoutRows poolId msg socks = some rows) :
    (rows.rewards.map fun u => u.balance.toNat).sum ≤ msg.totalRewards.toNat := by
  obtain ⟨passes, hpasses, rfl⟩ := payoutRows_eq_some.1 h
  refine (rewards_le hu hT hsum (fun _ he => he) hpasses).trans ?_
  exact sum_share_le (by decide) msg.totalRewards.toNat msg.submissions.entries (fun e => e.2.realHashpower.toNat) rfl

theorem commissionOf_le (full : UInt64) : (commissionOf full).toNat ≤ full.toNat := by
  rw [commissionOf, UInt64.toNat_div, UInt64.toNat_mul]
  have h := Nat.mod_le (full.toNat * (5 : UInt64).toNat) (2 ^ 64)
  have h5 : (5 : UInt64).toNat = 5 := rfl
  have h100 : (100 : UInt64).toNat = 100 := rfl
  rw [h5] at h ⊢
  rw [h100]
  omega

/-- Nothing is lost between the commission and what is split. -/
theorem Round.message_totalRewards (r : Round) (full : UInt64) (id : RowId) :
    (r.message full id).totalRewards.toNat + (r.message full id).commissions.toNat = full.toNat := by
  have hle := commissionOf_le full
  have : (r.message full id).totalRewards = full - commissionOf full := rfl
  rw [this, UInt64.toNat_sub_of_le _ _ (UInt64.le_iff_toNat_le.2 hle)]
  have : (r.message full id).commissions = commissionOf full := rfl
  rw [this]
  omega

end BitzPool
