import Shuvpi.ProviderInstances

/-!
# What subscriptions are told

What the updates say, besides their order: an update of a state member is what the state
published, and a subscription is told of every instance once. An instance that a subscriber
has not been told of is one that a loop has yet to announce to it.
-/
namespace Shuvpi.Provider

open List hiding next replace singleton
open Function hiding update

variable {V O : Type} {diff : V → V → List O}

namespace World

variable {w w' w'' : World V O}

/-! ## Later worlds -/

/-- What a run does not change: what an instance is and that it is gone, and the values that a state has had. -/
structure Later (w w' : World V O) : Prop where
  count : w.instanceCount ≤ w'.instanceCount
  instances : ∀ u < w.instanceCount, (w'.instances u).service = (w.instances u).service ∧
    (w'.instances u).address = (w.instances u).address ∧ (w'.instances u).members = (w.instances u).members ∧
      ((w'.instances u).active = true → (w.instances u).active = true)
  states : ∀ id, (w.states id).sequence ≤ (w'.states id).sequence ∧
    ∀ k ≤ (w.states id).sequence, (w'.states id).valueAt k = (w.states id).valueAt k

theorem Later.of_same (hcount : w'.instanceCount = w.instanceCount) (hinst : w'.instances = w.instances)
    (hstates : ∀ id, (w'.states id).sequence = (w.states id).sequence ∧
      (w'.states id).valueAt = (w.states id).valueAt) : Later w w' where
  count := hcount.ge
  instances := by
    intro u _
    rw [hinst]
    exact ⟨rfl, rfl, rfl, id⟩
  states := by
    intro id
    rw [(hstates id).1, (hstates id).2]
    exact ⟨Nat.le_refl _, fun _ _ => rfl⟩

theorem Later.trans (h : Later w w') (h' : Later w' w'') : Later w w'' where
  count := Nat.le_trans h.count h'.count
  instances := by
    intro u hu
    obtain ⟨hs, ha, hm, hact⟩ := h.instances u hu
    obtain ⟨hs', ha', hm', hact'⟩ := h'.instances u (Nat.lt_of_lt_of_le hu h.count)
    exact ⟨hs'.trans hs, ha'.trans ha, hm'.trans hm, fun hx => hact (hact' hx)⟩
  states := by
    intro id
    obtain ⟨hseq, hval⟩ := h.states id
    obtain ⟨hseq', hval'⟩ := h'.states id
    exact ⟨Nat.le_trans hseq hseq', fun k hk => (hval' k (Nat.le_trans hk hseq)).trans (hval k hk)⟩

theorem later_createInstance (w : World V O) (service : Nat) (address : Option ServiceInstanceAddress)
    (members : Members) : Later w (w.createInstance service address members) where
  count := Nat.le_succ _
  instances := by
    intro u hu
    rw [createInstance_old w service address members (Nat.ne_of_lt hu)]
    exact ⟨rfl, rfl, rfl, id⟩
  states := fun _ => ⟨Nat.le_refl _, fun _ _ => rfl⟩

theorem later_deactivate (w : World V O) (u : Nat) : Later w (w.deactivate u) where
  count := Nat.le_refl _
  instances := by
    intro u' _
    obtain ⟨hs, ha, hm, hact, -⟩ := deactivate_instances w u u'
    exact ⟨hs, ha, hm, fun hx => (hact.mp hx).1⟩
  states := fun _ => ⟨Nat.le_refl _, fun _ _ => rfl⟩

section Later

variable (hl : Later w w')
include hl

theorem Later.stateOf {u : Nat} (hu : u < w.instanceCount) (member : JsString) :
    w'.stateOf u member = w.stateOf u member := by
  rw [World.stateOf, World.stateOf, (hl.instances u hu).2.2.1]

theorem Published.later {id sequence : Nat} {ops : List O} (h : w.Published diff id sequence ops) :
    w'.Published diff id sequence ops := by
  obtain ⟨k, hk, hlt, rfl⟩ := h
  obtain ⟨hseq, hval⟩ := hl.states id
  refine ⟨k, hk, Nat.lt_of_lt_of_le hlt hseq, ?_⟩
  rw [hval k hlt.le, hval (k + 1) hlt]

theorem Shows.later {service u : Nat} {snapshot : ServiceInstanceSnapshot V} (h : w.Shows service u snapshot) :
    w'.Shows service u snapshot := by
  obtain ⟨hs, ha, hm, -⟩ := hl.instances u h.made
  refine ⟨Nat.lt_of_lt_of_le h.made hl.count, hs.trans h.service, h.address.trans ha.symm, ?_⟩
  rw [hm]
  refine h.members.imp ?_
  rintro ⟨name, member⟩ listed ⟨hname, hlisted⟩
  refine ⟨hname, ?_⟩
  cases member with
  | method => exact hlisted
  | state id =>
    obtain ⟨k, hk, hlisted⟩ := hlisted
    exact ⟨k, Nat.le_trans hk (hl.states id).1, by rw [hlisted, (hl.states id).2 k hk]⟩

theorem Later.holder {told : List Nat} (htold : ∀ u ∈ told, u < w.instanceCount)
    (address : Option ServiceInstanceAddress) : w'.holder told address = w.holder told address := by
  refine find?_congr ?_
  intro u hu
  rw [(hl.instances u (htold u hu)).2.1]

end Later

/-! ## Accounts -/

variable {service : Nat} {snapshot : List (ServiceInstanceSnapshot V)} {updates : List (ServiceProviderUpdate V O)}
  {told : List Nat}

theorem holder_some {u : Nat} {address : Option ServiceInstanceAddress} (h : w.holder told address = some u) :
    u ∈ told ∧ (w.instances u).address = address := by
  have haddress := find?_some h
  exact ⟨mem_of_find?_eq_some h, of_decide_eq_true haddress⟩

theorem holder_cons (w : World V O) (u : Nat) (told : List Nat) (address : Option ServiceInstanceAddress) :
    w.holder (u :: told) address =
      if (w.instances u).address = address then some u else w.holder told address := by
  unfold holder
  rw [find?_cons]
  by_cases he : (w.instances u).address = address
  · simp [he]
  · simp [he]

theorem Account.made (h : w.Account diff service snapshot updates told) : ∀ u ∈ told, u < w.instanceCount := by
  induction h with
  | start _ hshows => exact ((forall₂_and_left _ _).mp (hshows.imp fun _ _ hs => ⟨hs.made, hs⟩)).1
  | state _ _ _ _ ih | gone _ _ ih => exact ih
  | announced _ _ _ hshows ih =>
    intro u hu
    rcases mem_cons.mp hu with rfl | hu
    · exact hshows.made
    · exact ih u hu

theorem Account.nodup (h : w.Account diff service snapshot updates told) : told.Nodup := by
  induction h with
  | start hnodup _ => exact hnodup
  | state _ _ _ _ ih | gone _ _ ih => exact ih
  | announced _ _ hnew _ ih => exact nodup_cons.mpr ⟨hnew, ih⟩

theorem Account.later (h : w.Account diff service snapshot updates told) (hl : Later w w') :
    w'.Account diff service snapshot updates told := by
  induction h with
  | start hnodup hshows => exact .start hnodup (hshows.imp fun _ _ hs => hs.later hl)
  | state h hholder hid hpublished ih =>
    refine .state ih ((hl.holder h.made _).trans hholder) ?_ (hpublished.later hl)
    rw [hl.stateOf (h.made _ (holder_some hholder).1)]
    exact hid
  | announced _ hupdate hnew hshows ih => exact .announced ih hupdate hnew (hshows.later hl)
  | gone _ hupdate ih => exact .gone ih hupdate

/-- The account of fewer updates. -/
theorem Account.front {later : List (ServiceProviderUpdate V O)}
    (h : w.Account diff service snapshot (updates ++ later) told) :
    ∃ told', w.Account diff service snapshot updates told' := by
  induction later using reverseRecOn generalizing told with
  | nil =>
    rw [append_nil] at h
    exact ⟨told, h⟩
  | append_singleton later last ih =>
    rw [← append_assoc] at h
    obtain ⟨all, hall⟩ : ∃ all, all = updates ++ later ++ [last] := ⟨_, rfl⟩
    rw [← hall] at h
    cases h with
    | start => simp at hall
    | state h _ _ _ | announced h _ _ _ | gone h _ =>
      rw [(append_inj' hall rfl).1] at h
      exact ih h

/-! ## The contents of the loops -/

/-- What a loop hands out is what a state published, or a snapshot of the instance it announces. -/
def Carries (diff : V → V → List O) (w : World V O) : Frame V O → Prop
  | .deliver id publication _ => w.Published diff id publication.sequence publication.ops
  | .emit _ (.state _ member sequence ops) u _ => ∀ id, w.stateOf u member = some id → w.Published diff id sequence ops
  | .emit service (.replaced snapshot) u _ => w.Shows service u snapshot
  | .emit service (.spawned snapshot) u _ => w.Shows service u snapshot
  | _ => True

structure Contents (diff : V → V → List O) (w : World V O) : Prop where
  current : ∀ id, (w.states id).valueAt (w.states id).sequence = (w.states id).value
  queued : ∀ id, ∀ publication ∈ (w.states id).publications, w.Published diff id publication.sequence publication.ops
  carried : ∀ frame ∈ w.stack, w.Carries diff frame

theorem Carries.later {frame : Frame V O} (h : w.Carries diff frame) (hl : Later w w')
    (hmade : ∀ service update u cursor, frame = .emit service update u cursor → u < w.instanceCount) :
    w'.Carries diff frame := by
  cases frame with
  | deliver id publication left => exact Published.later hl h
  | replay c => trivial
  | emit service update u cursor =>
    cases update with
    | state address member sequence ops =>
      intro id hid
      rw [hl.stateOf (hmade _ _ _ _ rfl)] at hid
      exact (h id hid).later hl
    | replaced snapshot | spawned snapshot => exact Shows.later hl h
    | unavailable | closed => trivial

theorem Frames.made (h : w.Frames) (service : Nat) (update : ServiceProviderUpdate V O) (u cursor : Nat)
    (hmem : .emit service update u cursor ∈ w.stack) : u < w.instanceCount := (h.emit service update u cursor hmem).1

theorem Contents.later (h : w.Contents diff)
    (hmade : ∀ service update u cursor, .emit service update u cursor ∈ w.stack → u < w.instanceCount) (hl : Later w w')
    (hstates : ∀ id, (w'.states id).value = (w.states id).value ∧ (w'.states id).sequence = (w.states id).sequence ∧
      ∀ publication ∈ (w'.states id).publications, publication ∈ (w.states id).publications)
    (hstack : ∀ frame ∈ w'.stack, frame ∈ w.stack ∨ w'.Carries diff frame) : w'.Contents diff where
  current := by
    intro id
    obtain ⟨hvalue, hseq, -⟩ := hstates id
    rw [hvalue, hseq, (hl.states id).2 _ (Nat.le_refl _)]
    exact h.current id
  queued := fun id publication hmem => (h.queued id publication ((hstates id).2.2 publication hmem)).later hl
  carried := by
    intro frame hmem
    rcases hstack frame hmem with hmem | hnew
    · refine (h.carried frame hmem).later hl ?_
      rintro service update u cursor rfl
      exact hmade service update u cursor hmem
    · exact hnew

/-- A snapshot made now. -/
theorem Contents.shows (h : w.Contents diff) {u : Nat} (hu : u < w.instanceCount) :
    w.Shows (w.instances u).service u (w.snapshotInstance u) := by
  refine ⟨hu, rfl, rfl, ?_⟩
  rw [snapshotInstance, forall₂_map_right_iff, forall₂_same]
  rintro ⟨name, member⟩ -
  cases member with
  | method => exact ⟨rfl, rfl⟩
  | state id => exact ⟨rfl, _, Nat.le_refl _, by rw [h.current]⟩

/-! ## What a subscriber has been told -/

/-- A loop of the service has yet to come to the subscriber with the update. -/
def Owed (w : World V O) (service t : Nat) (update : ServiceProviderUpdate V O) (u : Nat) : Prop :=
  ∃ cursor ≤ t, .emit service update u cursor ∈ w.stack

/-- The instance has yet to be announced to the subscriber. -/
def Awaits (w : World V O) (service t u : Nat) : Prop :=
  ∃ update, w.Owed service t update u ∧ (Frame.emit service update u 0).announces u = true

structure Told (diff : V → V → List O) (w : World V O) (service t c : Nat) (told : List Nat) : Prop where
  account : w.Account diff service (w.subscribers c).snapshot (w.received c) told
  holds : ∀ address u, w.instanceAt service address = some u →
    w.Covered service t address ∨ w.holder told address = some u
  heard : ∀ u < w.instanceCount, (w.instances u).service = service → (w.subscribers c).missed u = false →
    u ∈ told ∨ w.Awaits service t u
  fresh : ∀ u, w.Awaits service t u → u ∉ told

structure Accounts (diff : V → V → List O) (w : World V O) : Prop where
  contents : w.Contents diff
  all : ∀ c < w.subscriberCount, ∃ told,
    w.Account diff (w.subscribers c).service (w.subscribers c).snapshot (w.received c) told
  seated : ∀ service t c, (t, c) ∈ (w.registrations service).subscribers.entries → ∃ told, w.Told diff service t c told

variable {t c u : Nat}

/-- What a loop that announces an instance says about it. -/
theorem Frames.awaits (h : w.Frames) (hentry : (t, c) ∈ (w.registrations service).subscribers.entries)
    (ha : w.Awaits service t u) :
    w.Covered service t (w.instances u).address ∧ (w.instances u).active = true ∧ (w.instances u).service = service := by
  obtain ⟨update, ⟨cursor, hle, hmem⟩, hann⟩ := ha
  obtain ⟨-, hserv, htells⟩ := h.emit service update u cursor hmem
  have htells := htells ((unfinished_iff w service cursor).mpr ⟨(t, c), hentry, hle⟩)
  refine ⟨⟨update, u, cursor, hmem, ?_, hle⟩, ?_, hserv⟩
  · cases update with
    | replaced snapshot => rw [← htells.1.address, htells.2, ServiceProviderUpdate.renews]
    | spawned snapshot => rw [← htells.1.address, ServiceProviderUpdate.renews]
    | state | unavailable | closed => cases hann
  · cases update with
    | replaced snapshot | spawned snapshot => exact htells.1.active
    | state | unavailable | closed => cases hann

theorem Told.later (h : w.Told diff service t c told) (hreg : w.Registry) (hreg' : w'.Registry) (hframes' : w'.Frames)
    (hl : Later w w') (hentry' : (t, c) ∈ (w'.registrations service).subscribers.entries)
    (hsnapshot : (w'.subscribers c).snapshot = (w.subscribers c).snapshot)
    (hmissed : (w'.subscribers c).missed = (w.subscribers c).missed) (hreceived : w'.received c = w.received c)
    (hkeep : ∀ update u, w.Owed service t update u → w'.Owed service t update u)
    (hnew : ∀ update u, (Frame.emit service update u 0).announces u = true → w'.Owed service t update u →
      w.Owed service t update u ∨ w.instanceCount ≤ u)
    (hmade : ∀ u, w.instanceCount ≤ u → u < w'.instanceCount → (w'.instances u).service = service →
      w'.Awaits service t u) : w'.Told diff service t c told where
  account := by
    rw [hsnapshot, hreceived]
    exact h.account.later hl
  holds := by
    intro address u hu
    obtain ⟨hactive, hserv, haddr⟩ := (hreg'.reached service address u).mp hu
    by_cases hlt : u < w.instanceCount
    · obtain ⟨hs, ha, -, hact⟩ := hl.instances u hlt
      rw [hl.holder h.account.made]
      have hold := (hreg.reached service address u).mpr ⟨hact hactive, hs.symm.trans hserv, ha.symm.trans haddr⟩
      refine (h.holds address u hold).imp_left ?_
      rintro ⟨update, about, cursor, hmem, hrenews, hle⟩
      obtain ⟨cursor', hle', hmem'⟩ := hkeep update about ⟨cursor, hle, hmem⟩
      exact ⟨update, about, cursor', hmem', hrenews, hle'⟩
    · -- the loop that announces a new instance renews its address
      left
      have hawaits := hmade u (Nat.le_of_not_lt hlt) (hreg'.lt_of_active hactive) hserv
      rw [← haddr]
      exact (hframes'.awaits hentry' hawaits).1
  heard := by
    intro u hu hserv hmiss
    by_cases hlt : u < w.instanceCount
    · rw [hmissed] at hmiss
      refine (h.heard u hlt ((hl.instances u hlt).1.symm.trans hserv) hmiss).imp_right ?_
      rintro ⟨update, howed, hann⟩
      exact ⟨update, hkeep update u howed, hann⟩
    · exact .inr (hmade u (Nat.le_of_not_lt hlt) hu hserv)
  fresh := by
    rintro u ⟨update, howed, hann⟩ hmem
    rcases hnew update u hann howed with howed | hge
    · exact h.fresh u ⟨update, howed, hann⟩ hmem
    · exact Nat.not_lt_of_le hge (h.account.made u hmem)

/-- An operation that leaves the subscribers where they are. -/
theorem Accounts.later (h : w.Accounts diff) (hi : Inv noneExempt w) (hi' : Inv noneExempt w') (hl : Later w w')
    (hcontents : w'.Contents diff) (hcount : w'.subscriberCount = w.subscriberCount)
    (hsub : ∀ c, (w'.subscribers c).service = (w.subscribers c).service ∧
      (w'.subscribers c).snapshot = (w.subscribers c).snapshot ∧
      (w'.subscribers c).missed = (w.subscribers c).missed ∧ w'.received c = w.received c)
    (hentries : ∀ service, (w'.registrations service).subscribers = (w.registrations service).subscribers)
    (hkeep : ∀ service update u cursor, .emit service update u cursor ∈ w.stack → w.Unfinished service cursor →
      .emit service update u cursor ∈ w'.stack)
    (hnew : ∀ service update u cursor, (Frame.emit service update u cursor).announces u = true →
      .emit service update u cursor ∈ w'.stack → .emit service update u cursor ∈ w.stack ∨ w.instanceCount ≤ u)
    (hmade : ∀ u, w.instanceCount ≤ u → u < w'.instanceCount → ∀ service t c, (w'.instances u).service = service →
      (t, c) ∈ (w.registrations service).subscribers.entries → w'.Awaits service t u) : w'.Accounts diff where
  contents := hcontents
  all := by
    intro c hc
    rw [hcount] at hc
    obtain ⟨hserv, hsnap, -, hrecv⟩ := hsub c
    obtain ⟨told, htold⟩ := h.all c hc
    rw [hserv, hsnap, hrecv]
    exact ⟨told, htold.later hl⟩
  seated := by
    intro service t c hentry
    have hentry' := hentry
    rw [hentries] at hentry
    obtain ⟨-, hsnap, hmissed, hrecv⟩ := hsub c
    obtain ⟨told, htold⟩ := h.seated service t c hentry
    refine ⟨told, htold.later hi.registry hi'.registry hi'.frames hl hentry' hsnap hmissed hrecv ?_ ?_
      fun u hge hlt hserv => hmade u hge hlt service t c hserv hentry⟩
    · rintro update u ⟨cursor, hle, hmem⟩
      exact ⟨cursor, hle, hkeep service update u cursor hmem
        ((unfinished_iff w service cursor).mpr ⟨(t, c), hentry, hle⟩)⟩
    · rintro update u hann ⟨cursor, hle, hmem⟩
      refine (hnew service update u cursor ?_ hmem).imp_left fun hmem => ⟨cursor, hle, hmem⟩
      cases update <;> exact hann

/-- The same subscribers and instances, under another stack. -/
theorem Accounts.restack (h : w.Accounts diff) (hi : Inv noneExempt w) (hi' : Inv noneExempt w') (hl : Later w w')
    (hcontents : w'.Contents diff) (hmade : w'.instanceCount = w.instanceCount)
    (hregistrations : w'.registrations = w.registrations) (hsubscribers : w'.subscribers = w.subscribers)
    (hcount : w'.subscriberCount = w.subscriberCount)
    (hkeep : ∀ service update u cursor, .emit service update u cursor ∈ w.stack → w.Unfinished service cursor →
      .emit service update u cursor ∈ w'.stack)
    (hnew : ∀ service update u cursor, (Frame.emit service update u cursor).announces u = true →
      .emit service update u cursor ∈ w'.stack → .emit service update u cursor ∈ w.stack) : w'.Accounts diff := by
  refine h.later hi hi' hl hcontents hcount ?_ (fun _ => by rw [hregistrations]) hkeep
    (fun service update u cursor hann hmem => .inl (hnew service update u cursor hann hmem)) ?_
  · intro c
    rw [received, received, hsubscribers]
    exact ⟨rfl, rfl, rfl, rfl⟩
  · intro u hge hlt
    rw [hmade] at hlt
    exact absurd hlt (Nat.not_lt_of_le hge)

/-! ## Operations -/

theorem shiftPublication_frame (w : World V O) (id : Nat) (rest : List (Frame V O)) :
    (w.shiftPublication id rest).instances = w.instances ∧ (w.shiftPublication id rest).instanceCount = w.instanceCount ∧
      (w.shiftPublication id rest).registrations = w.registrations ∧
      (w.shiftPublication id rest).subscribers = w.subscribers ∧
      (w.shiftPublication id rest).subscriberCount = w.subscriberCount ∧
      (∀ id', ((w.shiftPublication id rest).states id').value = (w.states id').value ∧
        ((w.shiftPublication id rest).states id').sequence = (w.states id').sequence ∧
        ((w.shiftPublication id rest).states id').valueAt = (w.states id').valueAt ∧
        ∀ publication ∈ ((w.shiftPublication id rest).states id').publications,
          publication ∈ (w.states id').publications) ∧
      ((w.shiftPublication id rest).stack = rest ∨ ∃ publication ∈ (w.states id).publications,
        (w.shiftPublication id rest).stack = .deliver id publication (w.states id).sourceListeners :: rest) := by
  have hset : ∀ (s : ReplicatedState V O) id', s.value = (w.states id).value → s.sequence = (w.states id).sequence →
      s.valueAt = (w.states id).valueAt → (∀ publication ∈ s.publications, publication ∈ (w.states id).publications) →
      ((w.setState id s).states id').value = (w.states id').value ∧
        ((w.setState id s).states id').sequence = (w.states id').sequence ∧
        ((w.setState id s).states id').valueAt = (w.states id').valueAt ∧
        ∀ publication ∈ ((w.setState id s).states id').publications, publication ∈ (w.states id').publications := by
    intro s id' hvalue hseq hval hpub
    by_cases he : id' = id
    · rw [he, setState_self]
      exact ⟨hvalue, hseq, hval, hpub⟩
    · rw [setState_other w s he]
      exact ⟨rfl, rfl, rfl, fun _ hmem => hmem⟩
  rw [shiftPublication]
  cases hp : (w.states id).publications with
  | nil =>
    refine ⟨rfl, rfl, rfl, rfl, rfl, fun id' => hset _ id' rfl rfl rfl ?_, .inl rfl⟩
    intro publication hmem
    cases hmem
  | cons publication publications =>
    refine ⟨rfl, rfl, rfl, rfl, rfl, fun id' => hset _ id' rfl rfl rfl ?_, .inr ⟨publication, mem_cons_self, rfl⟩⟩
    intro publication' hmem
    rw [hp]
    exact mem_cons_of_mem _ hmem

theorem shiftPublication_later (w : World V O) (id : Nat) (rest : List (Frame V O)) :
    Later w (w.shiftPublication id rest) := by
  obtain ⟨hinst, hmade, -, -, -, hstates, -⟩ := shiftPublication_frame w id rest
  exact .of_same hmade hinst fun id' => ⟨(hstates id').2.1, (hstates id').2.2.1⟩

theorem Contents.shiftPublication (h : w.Contents diff)
    (hmade : ∀ service update u cursor, .emit service update u cursor ∈ w.stack → u < w.instanceCount) (id : Nat)
    {rest : List (Frame V O)} (hrest : ∀ frame ∈ rest, frame ∈ w.stack) :
    (w.shiftPublication id rest).Contents diff := by
  have hl := shiftPublication_later w id rest
  obtain ⟨-, -, -, -, -, hstates, hstack⟩ := shiftPublication_frame w id rest
  refine h.later hmade hl (fun id' => ⟨(hstates id').1, (hstates id').2.1, (hstates id').2.2.2⟩) ?_
  intro frame hmem
  rcases hstack with hstack | ⟨publication, hpub, hstack⟩
  · rw [hstack] at hmem
    exact .inl (hrest frame hmem)
  · rw [hstack] at hmem
    rcases mem_cons.mp hmem with rfl | hmem
    · exact .inr ((h.queued id publication hpub).later hl)
    · exact .inl (hrest frame hmem)

variable {id : Nat} {s : ReplicatedState V O} {next : V}

/-- A change of a state, from its value to the next. -/
theorem setState_later (hseq : s.sequence = (w.states id).sequence + 1)
    (hval : s.valueAt = Function.update (w.states id).valueAt ((w.states id).sequence + 1) next) :
    Later w (w.setState id s) where
  count := Nat.le_refl _
  instances := fun _ _ => ⟨rfl, rfl, rfl, fun hactive => hactive⟩
  states := by
    intro id'
    by_cases he : id' = id
    · rw [he, setState_self, hseq, hval]
      refine ⟨Nat.le_succ _, ?_⟩
      intro k hk
      exact update_of_ne (Nat.ne_of_lt (Nat.lt_succ_of_le hk)) _ _
    · rw [setState_other w s he]
      exact ⟨Nat.le_refl _, fun _ _ => rfl⟩

theorem Contents.setState (h : w.Contents diff)
    (hmade : ∀ service update u cursor, .emit service update u cursor ∈ w.stack → u < w.instanceCount)
    (hvalue : s.value = next) (hseq : s.sequence = (w.states id).sequence + 1)
    (hpub : s.publications = (w.states id).publications ++
      [⟨(w.states id).sequence + 1, diff (w.states id).value next⟩])
    (hval : s.valueAt = Function.update (w.states id).valueAt ((w.states id).sequence + 1) next) :
    (w.setState id s).Contents diff := by
  have hl : Later w (w.setState id s) := setState_later hseq hval
  refine ⟨?_, ?_, ?_⟩
  · intro id'
    by_cases he : id' = id
    · rw [he, setState_self, hseq, hval, hvalue]
      exact update_self _ _ _
    · rw [setState_other w s he]
      exact h.current id'
  · intro id' publication hmem
    by_cases he : id' = id
    · rw [he, setState_self, hpub] at hmem
      rw [he]
      rcases mem_append.mp hmem with hmem | hmem
      · exact (h.queued id publication hmem).later hl
      · rw [mem_singleton.mp hmem]
        refine ⟨(w.states id).sequence, rfl, ?_, ?_⟩
        · rw [setState_self, hseq]
          exact Nat.lt_succ_self _
        · rw [setState_self, hval, update_self, update_of_ne (Nat.ne_of_lt (Nat.lt_succ_self _)), h.current]
    · rw [setState_other w s he] at hmem
      exact (h.queued id' publication hmem).later hl
  · intro frame hmem
    refine (h.carried frame hmem).later hl ?_
    rintro service update u cursor rfl
    exact hmade service update u cursor hmem

theorem commit_accounts (h : w.Accounts diff) (hi : Inv noneExempt w) (hi' : Inv noneExempt (w.commit diff id next)) :
    (w.commit diff id next).Accounts diff := by
  rw [commit] at hi' ⊢
  dsimp only at hi' ⊢
  split at hi'
  · rename_i hops
    rw [if_pos hops]
    exact h
  · rename_i hops
    rw [if_neg hops]
    split at hi'
    · rename_i hbusy
      rw [if_pos hbusy]
      exact h.restack hi hi' (setState_later rfl rfl) (h.contents.setState hi.frames.made rfl rfl rfl rfl) rfl rfl rfl rfl
        (fun _ _ _ _ hmem _ => hmem) (fun _ _ _ _ _ hmem => hmem)
    · rename_i hbusy
      rw [if_neg hbusy]
      obtain ⟨changed, hchanged⟩ : ∃ changed : World V O, changed = w.setState id
        { w.states id with
          value := next, sequence := (w.states id).sequence + 1, delivering := true
          publications := (w.states id).publications ++ [⟨(w.states id).sequence + 1, diff (w.states id).value next⟩]
          valueAt := Function.update (w.states id).valueAt ((w.states id).sequence + 1) next } := ⟨_, rfl⟩
      have hl : Later w changed := hchanged ▸ setState_later rfl rfl
      have hcontents : changed.Contents diff := hchanged ▸ h.contents.setState hi.frames.made rfl rfl rfl rfl
      obtain ⟨-, hmade, hregs, hsubs, hcount, -, hstack⟩ := shiftPublication_frame changed id w.stack
      rw [← hchanged] at hi' ⊢
      have hmem : ∀ service update u cursor, .emit service update u cursor ∈ (changed.shiftPublication id w.stack).stack ↔
          .emit service update u cursor ∈ w.stack := by
        intro service update u cursor
        rcases hstack with hstack | ⟨publication, -, hstack⟩
        · rw [hstack]
        · simp [hstack]
      subst hchanged
      exact h.restack hi hi' (hl.trans (shiftPublication_later _ id w.stack))
        (hcontents.shiftPublication hi.frames.made id fun _ hmem => hmem) hmade hregs hsubs hcount
        (fun service update u cursor hin _ => (hmem service update u cursor).mpr hin)
        (fun service update u cursor _ hin => (hmem service update u cursor).mp hin)

variable {rest : List (Frame V O)}

/-- A loop that is over ends. -/
theorem pop_accounts (h : w.Accounts diff) (hi : Inv noneExempt w) {frame : Frame V O} (hstack : w.stack = frame :: rest)
    (hi' : Inv noneExempt { w with stack := rest })
    (hover : ∀ service update u cursor, frame = .emit service update u cursor → ¬ w.Unfinished service cursor) :
    ({ w with stack := rest } : World V O).Accounts diff := by
  have hin : ∀ frame ∈ rest, frame ∈ w.stack := by
    intro frame hmem
    rw [hstack]
    exact mem_cons_of_mem _ hmem
  have hl : Later w { w with stack := rest } := .of_same rfl rfl fun _ => ⟨rfl, rfl⟩
  refine h.restack hi hi' hl (h.contents.later hi.frames.made hl (fun _ => ⟨rfl, rfl, fun _ hmem => hmem⟩)
    fun frame hmem => .inl (hin frame hmem)) rfl rfl rfl rfl ?_ fun _ _ _ _ _ hmem => hin _ hmem
  intro service update u cursor hmem hunf
  rw [hstack] at hmem
  rcases mem_cons.mp hmem with he | hmem
  · exact absurd hunf (hover service update u cursor he.symm)
  · exact hmem

variable {sub : ProviderSubscriber V O}

/-- What a subscriber has received moves on to its listener. -/
theorem setSubscriber_accounts (h : w.Accounts diff) (hi : Inv noneExempt w) {stack : List (Frame V O)}
    (hi' : Inv noneExempt { w.setSubscriber c sub with stack := stack })
    (hserv : sub.service = (w.subscribers c).service) (hsnapshot : sub.snapshot = (w.subscribers c).snapshot)
    (hmissed : sub.missed = (w.subscribers c).missed) (hreceived : sub.log ++ (sub.replaying ++ sub.buffer) = w.received c)
    (hstack : ∀ frame ∈ stack, frame ∈ w.stack ∨ frame = .replay c) (hkeep : ∀ frame ∈ w.stack, frame ∈ stack) :
    ({ w.setSubscriber c sub with stack := stack } : World V O).Accounts diff := by
  have hl : Later w { w.setSubscriber c sub with stack := stack } := .of_same rfl rfl fun _ => ⟨rfl, rfl⟩
  refine h.later hi hi' hl (h.contents.later hi.frames.made hl (fun _ => ⟨rfl, rfl, fun _ hmem => hmem⟩) ?_) rfl ?_
    (fun _ => rfl) (fun _ _ _ _ hmem _ => hkeep _ hmem) ?_ fun u hge hlt => absurd hlt (Nat.not_lt_of_le hge)
  · intro frame hmem
    refine (hstack frame hmem).imp_right ?_
    rintro rfl
    trivial
  · intro c'
    by_cases he : c' = c
    · subst he
      simp only [setSubscriber, received, update_self]
      exact ⟨hserv, hsnapshot, hmissed, hreceived⟩
    · simp [setSubscriber, received, update_of_ne he]
  · intro service update u cursor _ hmem
    rcases hstack _ hmem with hmem | he
    · exact .inl hmem
    · cases he

theorem activate_accounts (h : w.Accounts diff) (hi : Inv noneExempt w) : (w.activate c).Accounts diff := by
  have hi' := activate_inv hi c
  rw [activate] at hi' ⊢
  dsimp only at hi' ⊢
  split at hi'
  · rename_i hno
    rw [if_pos hno]
    exact h
  · rename_i hno
    rw [if_neg hno]
    have hrepl := hi.seats.inactive c (by simpa using (not_or.mp hno).2)
    refine setSubscriber_accounts h hi hi' rfl rfl rfl (by simp [received, hrepl]) ?_ fun _ hmem => mem_cons_of_mem _ hmem
    intro frame hmem
    exact (mem_cons.mp hmem).symm

/-- The `#emit` loop of an operation begins in a later world, with the same loops under it. -/
theorem emit_accounts (h : w.Accounts diff) (hi : Inv noneExempt w) {update : ServiceProviderUpdate V O}
    (hi' : Inv noneExempt (w'.emit service update u)) (hl : Later w w') (hcontents : w'.Contents diff)
    (hsubscribers : w'.subscribers = w.subscribers) (hcount : w'.subscriberCount = w.subscriberCount)
    (hentries : ∀ service, (w'.registrations service).subscribers = (w.registrations service).subscribers)
    (hstack : ∀ service update u cursor, .emit service update u cursor ∈ w'.stack ↔
      .emit service update u cursor ∈ w.stack)
    (hcarries : w'.Carries diff (.emit service update u 0))
    (hann : (Frame.emit service update u 0).announces u = true → w.instanceCount ≤ u)
    (hmade : ∀ u', w.instanceCount ≤ u' → u' < w'.instanceCount → u' = u ∧ (w'.instances u').service = service ∧
      (Frame.emit service update u 0).announces u = true) : (w'.emit service update u).Accounts diff := by
  have hsub : ∀ c, (w'.subscribers c).service = (w.subscribers c).service ∧
      (w'.subscribers c).snapshot = (w.subscribers c).snapshot ∧
      (w'.subscribers c).missed = (w.subscribers c).missed ∧ w'.received c = w.received c := by
    intro c
    rw [received, received, hsubscribers]
    exact ⟨rfl, rfl, rfl, rfl⟩
  rw [emit] at hi' ⊢
  split at hi'
  · rename_i hnobody
    rw [if_pos hnobody]
    refine h.later hi hi' hl hcontents hcount hsub hentries (fun _ _ _ _ hmem _ => (hstack _ _ _ _).mpr hmem)
      (fun _ _ _ _ _ hmem => .inl ((hstack _ _ _ _).mp hmem)) ?_
    intro u' hge hlt service' t c hserv hentry
    obtain ⟨-, hs, -⟩ := hmade u' hge hlt
    rw [← hentries, ← hserv, hs, hnobody] at hentry
    cases hentry
  · rename_i hsome
    rw [if_neg hsome]
    have hpush : Later w' { w' with stack := .emit service update u 0 :: w'.stack } :=
      .of_same rfl rfl fun _ => ⟨rfl, rfl⟩
    have hlt : ∀ service update u cursor, .emit service update u cursor ∈ w'.stack → u < w'.instanceCount :=
      fun service update u cursor hmem =>
        Nat.lt_of_lt_of_le (hi.frames.made service update u cursor ((hstack _ _ _ _).mp hmem)) hl.count
    refine h.later hi hi' (hl.trans hpush) (hcontents.later hlt hpush (fun _ => ⟨rfl, rfl, fun _ hmem => hmem⟩) ?_)
      hcount hsub hentries (fun _ _ _ _ hmem _ => mem_cons_of_mem _ ((hstack _ _ _ _).mpr hmem)) ?_ ?_
    · intro frame hmem
      rcases mem_cons.mp hmem with rfl | hmem
      · exact .inr (hcarries.later hpush fun service' update' u' cursor he => by
          cases he
          exact hi'.frames.made service update u 0 mem_cons_self)
      · exact .inl hmem
    · intro service' update' u' cursor hann' hmem
      rcases mem_cons.mp hmem with he | hmem
      · cases he
        exact .inr (hann hann')
      · exact .inl ((hstack _ _ _ _).mp hmem)
    · intro u' hge hlt service' t c hserv _
      obtain ⟨rfl, hs, hannounces⟩ := hmade u' hge hlt
      have he : service' = service := hserv.symm.trans hs
      subst he
      exact ⟨update, ⟨0, Nat.zero_le _, mem_cons_self⟩, hannounces⟩

/-- The delivery turns to the next member that listens to the state. -/
theorem sourceStep_accounts (h : w.Accounts diff) (hi : Inv noneExempt w) {publication : Publication O} {member : JsString}
    {left : List (Nat × JsString)} (hstack : w.stack = .deliver id publication ((u, member) :: left) :: rest) :
    w.next.Accounts diff := by
  have hi' := sourceStep_inv hi hstack
  have htop : .deliver id publication ((u, member) :: left) ∈ w.stack := by
    rw [hstack]
    exact mem_cons_self
  simp only [World.next, hstack] at hi' ⊢
  obtain ⟨going, hgoing⟩ : ∃ going : World V O, going = { w with stack := .deliver id publication left :: rest } :=
    ⟨_, rfl⟩
  rw [← hgoing] at hi' ⊢
  have hl : Later w going := by
    subst hgoing
    exact .of_same rfl rfl fun _ => ⟨rfl, rfl⟩
  have hpublished : going.Carries diff (.deliver id publication left) := Published.later hl (h.contents.carried _ htop)
  have hcontents : going.Contents diff := by
    refine h.contents.later hi.frames.made hl ?_ ?_
    · subst hgoing
      exact fun _ => ⟨rfl, rfl, fun _ hmem => hmem⟩
    · intro frame hmem
      rw [hgoing] at hmem
      rcases mem_cons.mp hmem with rfl | hmem
      · exact .inr hpublished
      · rw [hstack]
        exact .inl (mem_cons_of_mem _ hmem)
  have hemits : ∀ service update u cursor, .emit service update u cursor ∈ going.stack ↔
      .emit service update u cursor ∈ w.stack := by
    intro service update u cursor
    simp [hgoing, hstack]
  split at hi'
  · rename_i hactive
    rw [if_pos hactive]
    refine emit_accounts h hi hi' hl hcontents ?_ ?_ ?_ hemits ?_ ?_ ?_
    · rw [hgoing]
    · rw [hgoing]
    · intro service
      rw [hgoing]
    · intro id' hid
      have hid' : w.stateOf u member = some id' := by
        rw [← hid, hgoing]
        rfl
      rw [(hi.frames.deliver id publication _ htop).2 (u, member) mem_cons_self] at hid'
      cases hid'
      exact hpublished
    · intro hann
      cases hann
    · intro u' hge hlt
      rw [hgoing] at hlt
      exact absurd hlt (Nat.not_lt_of_le hge)
  · rename_i hgone
    rw [if_neg hgone]
    subst hgoing
    exact h.restack hi hi' hl hcontents rfl rfl rfl rfl (fun _ _ _ _ hmem _ => (hemits _ _ _ _).mpr hmem)
      fun _ _ _ _ _ hmem => (hemits _ _ _ _).mp hmem

/-! ## Registrations -/

/-- Instances are made and removed, and a registration changes. -/
structure Rebooked (w w' : World V O) : Prop where
  later : Later w w'
  states : ∀ id, (w'.states id).value = (w.states id).value ∧ (w'.states id).sequence = (w.states id).sequence ∧
    ∀ publication ∈ (w'.states id).publications, publication ∈ (w.states id).publications
  stack : w'.stack = w.stack
  subscribers : w'.subscribers = w.subscribers
  count : w'.subscriberCount = w.subscriberCount
  entries : ∀ service, (w'.registrations service).subscribers = (w.registrations service).subscribers

theorem rebooked_createInstance (w : World V O) (service : Nat) (address : Option ServiceInstanceAddress)
    (members : Members) : Rebooked w (w.createInstance service address members) :=
  ⟨later_createInstance w service address members, fun _ => ⟨rfl, rfl, fun _ hmem => hmem⟩, rfl, rfl, rfl, fun _ => rfl⟩

theorem Rebooked.deactivate (h : Rebooked w w') (u : Nat) : Rebooked w (w'.deactivate u) :=
  ⟨h.later.trans (later_deactivate w' u), h.states, h.stack, h.subscribers, h.count, h.entries⟩

theorem Rebooked.setRegistration (h : Rebooked w w') (service : Nat) {r : ServiceRegistration}
    (hr : r.subscribers = (w.registrations service).subscribers) : Rebooked w (w'.setRegistration service r) where
  later := h.later.trans (.of_same rfl rfl fun _ => ⟨rfl, rfl⟩)
  states := h.states
  stack := h.stack
  subscribers := h.subscribers
  count := h.count
  entries := by
    intro service'
    by_cases he : service' = service
    · rw [he, setRegistration_self, hr]
    · rw [setRegistration_other _ _ he]
      exact h.entries service'

theorem Rebooked.contents (h : Rebooked w w') (hc : w.Contents diff) (hi : Inv noneExempt w) : w'.Contents diff :=
  hc.later hi.frames.made h.later h.states fun _ hmem => .inl (h.stack ▸ hmem)

/-- The announcement of a new instance. -/
theorem Rebooked.announce_accounts (hr : Rebooked w w') (h : w.Accounts diff) (hi : Inv noneExempt w)
    {update : ServiceProviderUpdate V O} (hi' : Inv noneExempt (w'.emit service update w.instanceCount))
    (hmade : w'.instanceCount = w.instanceCount + 1) (hserv : (w'.instances w.instanceCount).service = service)
    (hupdate : update = .replaced (w'.snapshotInstance w.instanceCount) ∨
      update = .spawned (w'.snapshotInstance w.instanceCount)) :
    (w'.emit service update w.instanceCount).Accounts diff := by
  have hcontents := hr.contents h.contents hi
  have hshows := hcontents.shows (u := w.instanceCount) (by omega)
  rw [hserv] at hshows
  refine emit_accounts h hi hi' hr.later hcontents hr.subscribers hr.count hr.entries (fun _ _ _ _ => by rw [hr.stack])
    ?_ (fun _ => Nat.le_refl _) ?_
  · rcases hupdate with rfl | rfl
    · exact hshows
    · exact hshows
  · intro u' hge hlt
    have he : u' = w.instanceCount := by omega
    subst he
    refine ⟨rfl, hserv, ?_⟩
    rcases hupdate with rfl | rfl
    · exact decide_eq_true rfl
    · exact decide_eq_true rfl

/-- The withdrawal of an instance. -/
theorem Rebooked.remove_accounts (hr : Rebooked w w') (h : w.Accounts diff) (hi : Inv noneExempt w)
    {update : ServiceProviderUpdate V O} (hi' : Inv noneExempt (w'.emit service update u))
    (hmade : w'.instanceCount = w.instanceCount)
    (hupdate : update = .unavailable ∨ ∃ address, update = .closed address) : (w'.emit service update u).Accounts diff := by
  refine emit_accounts h hi hi' hr.later (hr.contents h.contents hi) hr.subscribers hr.count hr.entries
    (fun _ _ _ _ => by rw [hr.stack]) ?_ ?_ ?_
  · rcases hupdate with rfl | ⟨address, rfl⟩
    · trivial
    · trivial
  · intro hann
    rcases hupdate with rfl | ⟨address, rfl⟩
    · cases hann
    · cases hann
  · intro u' hge hlt
    omega

theorem rebooked_refl (w : World V O) : Rebooked w w :=
  ⟨.of_same rfl rfl fun _ => ⟨rfl, rfl⟩, fun _ => ⟨rfl, rfl, fun _ hmem => hmem⟩, rfl, rfl, rfl, fun _ => rfl⟩

section Registrations

variable (h : w.Accounts diff) (hi : Inv noneExempt w) (service : Nat) (members : Members)
include h hi

theorem provide_accounts (hi' : Inv noneExempt (w.provide service members))
    (hnobody : (w.registrations service).subscribers.entries = []) : (w.provide service members).Accounts diff := by
  rw [provide] at hi' ⊢
  split at hi'
  · rename_i hok
    rw [if_pos hok]
    have hr : Rebooked w _ := (rebooked_createInstance w service none members).setRegistration service (r :=
      { w.registrations service with
        singleton := some w.instanceCount, singletonShape := some (serviceMemberShape members) }) rfl
    refine h.later hi hi' hr.later (hr.contents h.contents hi) hr.count ?_ hr.entries
      (fun _ _ _ _ hmem _ => hmem) (fun _ _ _ _ _ hmem => .inl hmem) ?_
    · intro c
      exact ⟨rfl, rfl, rfl, rfl⟩
    · intro u hge hlt service' t c hserv hentry
      have he : u = w.instanceCount := Nat.le_antisymm (Nat.le_of_lt_succ hlt) hge
      subst he
      have hs : (w.createInstance service none members).instances w.instanceCount = _ :=
        createInstance_new w service none members
      have hserv : ((w.createInstance service none members).instances w.instanceCount).service = service' := hserv
      rw [hs] at hserv
      rw [← hserv, hnobody] at hentry
      cases hentry
  · rename_i hno
    rw [if_neg hno]
    exact h

theorem withdraw_accounts (hi' : Inv noneExempt (w.withdraw service)) : (w.withdraw service).Accounts diff := by
  simp only [withdraw] at hi' ⊢
  split at hi'
  · refine Rebooked.remove_accounts ?_ h hi hi' rfl (.inl rfl)
    exact ((rebooked_refl w).deactivate _).setRegistration service rfl
  · exact h

theorem replace_accounts (hi' : Inv noneExempt (w.replace service members)) :
    (w.replace service members).Accounts diff := by
  rw [replace] at hi' ⊢
  dsimp only at hi' ⊢
  split at hi'
  · rename_i hok
    rw [if_pos hok]
    have hnew := createInstance_new w service none members
    cases hs : (w.registrations service).singleton with
    | none =>
      rw [hs] at hi'
      refine Rebooked.announce_accounts ?_ h hi hi' rfl (congrArg ProviderInstance.service hnew) (.inl rfl)
      exact (rebooked_createInstance w service none members).setRegistration service rfl
    | some previous =>
      rw [hs] at hi'
      refine Rebooked.announce_accounts ?_ h hi hi' rfl ?_ (.inl rfl)
      · exact ((rebooked_createInstance w service none members).deactivate previous).setRegistration service rfl
      · exact (deactivate_instances _ previous _).1.trans (congrArg ProviderInstance.service hnew)
  · rename_i hno
    rw [if_neg hno]
    exact h

theorem spawn_accounts (key : JsString) (hi' : Inv noneExempt (w.spawn service key members)) :
    (w.spawn service key members).Accounts diff := by
  rw [spawn] at hi' ⊢
  dsimp only at hi' ⊢
  split at hi'
  · rename_i hok
    rw [if_pos hok]
    refine Rebooked.announce_accounts ?_ h hi hi' rfl
      (congrArg ProviderInstance.service (createInstance_new w service _ members)) (.inr rfl)
    exact (rebooked_createInstance w service _ members).setRegistration service rfl
  · rename_i hno
    rw [if_neg hno]
    exact h

theorem close_accounts (u : Nat) (hi' : Inv noneExempt (w.close u)) : (w.close u).Accounts diff := by
  rw [close] at hi' ⊢
  cases ha : (w.instances u).address with
  | none => exact h
  | some address =>
    rw [ha] at hi'
    dsimp only at hi' ⊢
    split at hi'
    · rename_i hok
      rw [if_pos hok]
      refine Rebooked.remove_accounts ?_ h hi hi' rfl (.inr ⟨_, rfl⟩)
      exact ((rebooked_refl w).deactivate _).setRegistration _ rfl
    · rename_i hno
      rw [if_neg hno]
      exact h

end Registrations

/-! ## Visits -/

theorem visit_missed (update : ServiceProviderUpdate V O) (s : ProviderSubscriber V O) :
    (visit update s).missed = s.missed := by
  unfold visit
  split
  · rfl
  · split
    · rfl
    · split
      · rfl
      · rfl

section Visits

variable {service u cursor t c : Nat} {update : ServiceProviderUpdate V O} {told : List Nat}

/-- The world after the visit of a subscriber. -/
def afterVisit (w : World V O) (service : Nat) (update : ServiceProviderUpdate V O) (u t c : Nat)
    (rest : List (Frame V O)) : World V O :=
  { w.setSubscriber c (visit update (w.subscribers c)) with stack := .emit service update u (t + 1) :: rest }

theorem afterVisit_later : Later w (w.afterVisit service update u t c rest) := .of_same rfl rfl fun _ => ⟨rfl, rfl⟩

theorem afterVisit_self : (w.afterVisit service update u t c rest).subscribers c = visit update (w.subscribers c) :=
  update_self _ _ _

theorem afterVisit_owed {update' : ServiceProviderUpdate V O} {u' : Nat}
    (h : (w.afterVisit service update u t c rest).Owed service t update' u') :
    ∃ cursor' ≤ t, .emit service update' u' cursor' ∈ rest := by
  obtain ⟨cursor', hle, hmem⟩ := h
  rcases mem_cons.mp hmem with he | hmem
  · cases he
    omega
  · exact ⟨cursor', hle, hmem⟩

variable (hi : Inv noneExempt w) (hstack : w.stack = .emit service update u cursor :: rest)
  (hnext : (w.registrations service).subscribers.nextFrom cursor = some (t, c))
  (h : w.Told diff service t c told)

include hstack in
/-- A loop that has not come to the subscriber is the one that comes to it now, or it lies below. -/
theorem owed_or_now {update' : ServiceProviderUpdate V O} {u' : Nat} (howed : w.Owed service t update' u') :
    (update' = update ∧ u' = u) ∨ (w.afterVisit service update u t c rest).Owed service t update' u' := by
  obtain ⟨cursor', hle, hmem⟩ := howed
  rw [hstack] at hmem
  rcases mem_cons.mp hmem with he | hmem
  · cases he
    exact .inl ⟨rfl, rfl⟩
  · exact .inr ⟨cursor', hle, mem_cons_of_mem _ hmem⟩

include hstack in
theorem covered_or_now {address : Option ServiceInstanceAddress} (hcovered : w.Covered service t address) :
    update.renews = some address ∨ (w.afterVisit service update u t c rest).Covered service t address := by
  obtain ⟨update', u', cursor', hmem, hrenews, hle⟩ := hcovered
  rcases owed_or_now (c := c) hstack ⟨cursor', hle, hmem⟩ with ⟨rfl, -⟩ | ⟨cursor', hle, hmem⟩
  · exact .inl hrenews
  · exact .inr ⟨update', u', cursor', hmem, hrenews, hle⟩

include hstack in
theorem afterVisit_awaits {u' : Nat} (ha : (w.afterVisit service update u t c rest).Awaits service t u') :
    w.Awaits service t u' := by
  obtain ⟨update', howed, hann⟩ := ha
  obtain ⟨cursor', hle, hmem⟩ := afterVisit_owed howed
  exact ⟨update', ⟨cursor', hle, by rw [hstack]; exact mem_cons_of_mem _ hmem⟩, hann⟩

include hstack h

/-- An update that announces nothing. -/
theorem Told.kept (hann : ∀ u', (Frame.emit service update u 0).announces u' = false)
    (hrenews : ∀ address, update.renews = some address → w.instanceAt service address = none)
    (haccount : (w.afterVisit service update u t c rest).Account diff service
      ((w.afterVisit service update u t c rest).subscribers c).snapshot
      ((w.afterVisit service update u t c rest).received c) told) :
    (w.afterVisit service update u t c rest).Told diff service t c told where
  account := haccount
  holds := by
    intro address u' hu'
    have hu' : w.instanceAt service address = some u' := hu'
    refine (h.holds address u' hu').imp_left ?_
    intro hcovered
    rcases covered_or_now (c := c) hstack hcovered with hnow | hcovered
    · rw [hrenews address hnow] at hu'
      cases hu'
    · exact hcovered
  heard := by
    intro u' hu' hserv hmissed
    rw [afterVisit_self, visit_missed] at hmissed
    refine (h.heard u' hu' hserv hmissed).imp_right ?_
    rintro ⟨update', howed, hannounces⟩
    rcases owed_or_now (c := c) hstack howed with ⟨rfl, rfl⟩ | howed
    · rw [hann] at hannounces
      cases hannounces
    · exact ⟨update', howed, hannounces⟩
  fresh := fun u' ha => h.fresh u' (afterVisit_awaits hstack ha)

include hi hnext

/-- An announcement. -/
theorem Told.announced (hann : (Frame.emit service update u 0).announces u = true)
    (hactive : (w.instances u).active = true) (hrenews : update.renews = some (w.instances u).address)
    (haccount : (w.afterVisit service update u t c rest).Account diff service
      ((w.afterVisit service update u t c rest).subscribers c).snapshot
      ((w.afterVisit service update u t c rest).received c) (u :: told)) :
    (w.afterVisit service update u t c rest).Told diff service t c (u :: told) where
  account := haccount
  holds := by
    intro address u' hu'
    have hu' : w.instanceAt service address = some u' := hu'
    have hserv := (hi.frames.emit service update u cursor (by rw [hstack]; exact mem_cons_self)).2.1
    by_cases he : (w.instances u).address = address
    · right
      have hu := (hi.registry.reached service address u).mpr ⟨hactive, hserv, he⟩
      rw [hu] at hu'
      cases hu'
      rw [holder_cons]
      exact if_pos he
    · refine (h.holds address u' hu').imp ?_ ?_
      · intro hcovered
        refine (covered_or_now (c := c) hstack hcovered).resolve_left ?_
        rw [hrenews]
        exact fun hx => he (Option.some.inj hx)
      · intro hholder
        rw [holder_cons]
        exact (if_neg he).trans hholder
  heard := by
    intro u' hu' hserv hmissed
    rw [afterVisit_self, visit_missed] at hmissed
    rcases h.heard u' hu' hserv hmissed with hmem | ⟨update', howed, hannounces⟩
    · exact .inl (mem_cons_of_mem _ hmem)
    · rcases owed_or_now (c := c) hstack howed with ⟨-, rfl⟩ | howed
      · exact .inl mem_cons_self
      · exact .inr ⟨update', howed, hannounces⟩
  fresh := by
    intro u' ha hmem
    rcases mem_cons.mp hmem with rfl | hmem
    · -- two loops that are not over do not announce one instance
      obtain ⟨update', howed, hannounces⟩ := ha
      obtain ⟨cursor', hle, hmem⟩ := afterVisit_owed howed
      have hpairs := hi.frames.pairs
      rw [hstack, pairwise_cons] at hpairs
      have hentry := (visited hi hstack hnext).1
      have hno := ((hpairs.1 _ hmem).announcing u' (by cases update' <;> exact hannounces)
        ((unfinished_iff w service cursor').mpr ⟨(t, c), hentry, hle⟩)).2.2
      have hyes : (Frame.emit service update u' cursor).announces u' = true := by cases update <;> exact hann
      rw [hyes] at hno
      cases hno
    · exact h.fresh u' (afterVisit_awaits hstack ha) hmem

/-- The subscriber visited. -/
theorem Told.visit (hc : w.Contents diff) :
    ∃ told', (w.afterVisit service update u t c rest).Told diff service t c told' := by
  obtain ⟨hentry, hle, hclosed, hrepl, htells⟩ := visited hi hstack hnext
  obtain ⟨-, -, hsnapshot, -, -, -, -, hreceived⟩ := visit_spec update hclosed hrepl (hi.seats.active c)
  have htop : .emit service update u cursor ∈ w.stack := by
    rw [hstack]
    exact mem_cons_self
  have hl : Later w (w.afterVisit service update u t c rest) := afterVisit_later
  have hold := h.account.later hl
  have hcarried := (hc.carried _ htop).later hl fun service' update' u' cursor' he => by
    cases he
    exact hi.frames.made service update u cursor htop
  have hnew : (Frame.emit service update u 0).announces u = true → u ∉ told :=
    fun hann => h.fresh u ⟨update, ⟨cursor, hle, htop⟩, hann⟩
  cases update with
  | state address member sequence ops =>
    obtain ⟨id, hid, hu, -⟩ := state_source hi hstack hnext
    have hholder := (h.holds address u hu).resolve_left (state_not_covered hi hstack hnext)
    refine ⟨told, h.kept hstack (fun _ => rfl) (fun _ hrenews => by cases hrenews) ?_⟩
    rw [received, afterVisit_self, hsnapshot, hreceived]
    split
    · rw [append_nil]
      exact hold
    · exact .state hold ((hl.holder h.account.made _).trans hholder) hid (hcarried id hid)
  | replaced shown =>
    have hann : (Frame.emit service (.replaced shown) u 0 : Frame V O).announces u = true := decide_eq_true rfl
    refine ⟨u :: told, h.announced hi hstack hnext hann htells.1.active ?_ ?_⟩
    · rw [← htells.1.address, htells.2]
      rfl
    · rw [received, afterVisit_self, hsnapshot, hreceived]
      exact .announced hold (.inl rfl) (hnew hann) hcarried
  | spawned shown =>
    have hann : (Frame.emit service (.spawned shown) u 0 : Frame V O).announces u = true := decide_eq_true rfl
    refine ⟨u :: told, h.announced hi hstack hnext hann htells.1.active ?_ ?_⟩
    · rw [← htells.1.address]
      rfl
    · rw [received, afterVisit_self, hsnapshot, hreceived]
      exact .announced hold (.inr rfl) (hnew hann) hcarried
  | unavailable =>
    refine ⟨told, h.kept hstack (fun _ => rfl) ?_ ?_⟩
    · intro address hrenews
      cases hrenews
      exact htells.1
    · rw [received, afterVisit_self, hsnapshot, hreceived]
      exact .gone hold (.inl rfl)
  | closed address =>
    refine ⟨told, h.kept hstack (fun _ => rfl) ?_ ?_⟩
    · intro address' hrenews
      cases hrenews
      exact htells
    · rw [received, afterVisit_self, hsnapshot, hreceived]
      exact .gone hold (.inr ⟨address, rfl⟩)

omit h in
theorem visit_accounts (h : w.Accounts diff) (hi' : Inv noneExempt (w.afterVisit service update u t c rest)) :
    (w.afterVisit service update u t c rest).Accounts diff := by
  have hl : Later w (w.afterVisit service update u t c rest) := afterVisit_later
  obtain ⟨hentry, hle, hclosed, hrepl, -⟩ := visited hi hstack hnext
  obtain ⟨hserv, -, hsnapshot, -, -, -, -, -⟩ := visit_spec update hclosed hrepl (hi.seats.active c)
  have htop : .emit service update u cursor ∈ w.stack := by
    rw [hstack]
    exact mem_cons_self
  have hservice := (hi.seats.seated service t c hentry).1
  have hother : ∀ c', c' ≠ c → (w.afterVisit service update u t c rest).subscribers c' = w.subscribers c' :=
    fun c' he => update_of_ne he _ _
  refine ⟨?_, ?_, ?_⟩
  · refine h.contents.later hi.frames.made hl (fun _ => ⟨rfl, rfl, fun _ hmem => hmem⟩) ?_
    intro frame hmem
    rcases mem_cons.mp hmem with rfl | hmem
    · right
      have hcarried : w.Carries diff (.emit service update u (t + 1)) := by
        have hold := h.contents.carried _ htop
        cases update <;> exact hold
      refine hcarried.later hl fun service' update' u' cursor' he => ?_
      cases he
      exact hi.frames.made service update u cursor htop
    · left
      rw [hstack]
      exact mem_cons_of_mem _ hmem
  · intro c' hc'
    by_cases he : c' = c
    · subst he
      obtain ⟨told, htold⟩ := h.seated service t c' hentry
      obtain ⟨told', htold'⟩ := htold.visit hi hstack hnext h.contents
      rw [afterVisit_self, hserv, hservice, ← afterVisit_self]
      exact ⟨told', htold'.account⟩
    · obtain ⟨told, htold⟩ := h.all c' hc'
      rw [received, hother c' he]
      exact ⟨told, htold.later hl⟩
  · intro service' t' c' hentry'
    obtain ⟨told, htold⟩ := h.seated service' t' c' hentry'
    by_cases he : c' = c
    · subst he
      have hs : service' = service := (hi.seats.seated service' t' c' hentry').1.symm.trans hservice
      subst hs
      obtain ⟨rfl, -⟩ := Prod.mk.inj (JsSet.entry_unique hentry' hentry rfl)
      exact htold.visit hi hstack hnext h.contents
    · -- the others are owed what they were owed before
      have howes : ∀ update' u', w.Owed service' t' update' u' ↔
          (w.afterVisit service update u t c rest).Owed service' t' update' u' := by
        intro update' u'
        have hmoved := fun hs => moved_owes hnext hentry' he hs
        constructor
        · rintro ⟨cursor', hle', hmem⟩
          rw [hstack] at hmem
          rcases mem_cons.mp hmem with hx | hmem
          · cases hx
            exact ⟨t + 1, (hmoved rfl).mp hle', mem_cons_self⟩
          · exact ⟨cursor', hle', mem_cons_of_mem _ hmem⟩
        · rintro ⟨cursor', hle', hmem⟩
          rcases mem_cons.mp hmem with hx | hmem
          · cases hx
            exact ⟨cursor, (hmoved rfl).mpr hle', htop⟩
          · exact ⟨cursor', hle', by rw [hstack]; exact mem_cons_of_mem _ hmem⟩
      refine ⟨told, htold.later hi.registry hi'.registry hi'.frames hl hentry' ?_ ?_ ?_ (fun update' u' => (howes _ _).mp)
        (fun update' u' _ howed => .inl ((howes _ _).mpr howed)) fun u' hge hlt => absurd hlt (Nat.not_lt_of_le hge)⟩
      · rw [hother c' he]
      · rw [hother c' he]
      · rw [received, received, hother c' he]

end Visits

/-! ## Subscriptions -/

theorem unsubscribe_accounts (h : w.Accounts diff) (hi : Inv noneExempt w) : (w.unsubscribe c).Accounts diff := by
  have hi' := unsubscribe_inv hi c
  rcases unsubscribe_cases hi.seats c with heq | hsub
  · rw [heq]
    exact h
  · generalize w.unsubscribe c = w' at hi' hsub
    obtain ⟨-, hself, hother, hentries, hstates, hstack, hcount, hbooks⟩ := hsub
    have hl : Later w w' := .of_same hbooks.count hbooks.instances fun id => by rw [hstates]; exact ⟨rfl, rfl⟩
    refine ⟨?_, ?_, ?_⟩
    · refine h.contents.later hi.frames.made hl (fun _ => ?_) fun frame hmem => .inl (hstack ▸ hmem)
      rw [hstates]
      exact ⟨rfl, rfl, fun _ hmem => hmem⟩
    · intro c' hc'
      rw [hcount] at hc'
      obtain ⟨told, htold⟩ := h.all c' hc'
      by_cases he : c' = c
      · subst he
        rw [received, ← append_assoc] at htold
        obtain ⟨told', htold'⟩ := htold.front
        rw [received, hself, append_nil]
        exact ⟨told', htold'.later hl⟩
      · rw [received, hother c' he]
        exact ⟨told, htold.later hl⟩
    · intro service t c' hentry'
      have he : c' ≠ c := by
        rintro rfl
        have hclosed := (hi'.seats.seated service t c' hentry').2
        rw [hself] at hclosed
        cases hclosed
      obtain ⟨told, htold⟩ := h.seated service t c' ((hentries service _).mp hentry').1
      refine ⟨told, htold.later hi.registry hi'.registry hi'.frames hl hentry' (by rw [hother c' he])
        (by rw [hother c' he]) (by rw [received, received, hother c' he]) ?_ ?_ ?_⟩
      · intro update u howed
        rw [Owed, hstack]
        exact howed
      · intro update u _ howed
        rw [Owed, hstack] at howed
        exact .inl howed
      · intro u hge hlt
        rw [hbooks.count] at hlt
        exact absurd hlt (Nat.not_lt_of_le hge)

/-- What a subscription is told when it begins. -/
theorem subscribed_told (h : w.Contents diff) (hi : Inv noneExempt w) (before : JsString → JsString → Bool)
    (service : Nat) : ∃ told : List Nat, w.Account diff service (w.snapshot before (w.registrations service)) [] told ∧
      ∀ address u, w.instanceAt service address = some u → w.holder told address = some u := by
  obtain ⟨told, htold, hnodup, hmem⟩ := snapshot_sources hi.registry before service
  have hreached : ∀ u ∈ told, (w.instances u).active = true ∧ (w.instances u).service = service := by
    intro u hu
    obtain ⟨address, hu⟩ := (hmem u).mp hu
    obtain ⟨hactive, hserv, -⟩ := (hi.registry.reached service address u).mp hu
    exact ⟨hactive, hserv⟩
  refine ⟨told, .start (.of_map _ hnodup) ?_, ?_⟩
  · rw [htold, forall₂_map_right_iff, forall₂_same]
    intro u hu
    obtain ⟨hactive, hserv⟩ := hreached u hu
    have hshows := h.shows (hi.registry.lt_of_active hactive)
    rwa [hserv] at hshows
  · intro address u hu
    cases hholder : w.holder told address with
    | none =>
      have hno := find?_eq_none.mp hholder u ((hmem u).mpr ⟨address, hu⟩)
      exact absurd (decide_eq_true ((hi.registry.reached service address u).mp hu).2.2) hno
    | some u' =>
      obtain ⟨hin, haddr⟩ := holder_some hholder
      obtain ⟨hactive, hserv⟩ := hreached u' hin
      rw [(hi.registry.reached service address u').mpr ⟨hactive, hserv, haddr⟩] at hu
      exact hu

theorem subscribe_accounts (h : w.Accounts diff) (hi : Inv noneExempt w) (before : JsString → JsString → Bool)
    (service : Nat) (mode : ServiceMode) (hharm : ∀ frame ∈ w.stack, w.Harmless service frame) :
    (w.subscribe before service mode).Accounts diff := by
  have hi' := subscribe_inv hi before service mode hharm
  rcases subscribe_cases w before service mode with heq | hsub
  · rw [heq]
    exact h
  · generalize w.subscribe before service mode = w' at hi' hsub
    obtain ⟨hself, hother, hentries, -, -, hstates, hstack, hcount, hbooks⟩ := hsub
    have hl : Later w w' := .of_same hbooks.count hbooks.instances fun id => by rw [hstates]; exact ⟨rfl, rfl⟩
    obtain ⟨told, haccount, hholder⟩ := subscribed_told h.contents hi before service
    have hreceived : w'.received w.subscriberCount = [] := by
      rw [received, hself]
      rfl
    have hnew : w'.Account diff (w'.subscribers w.subscriberCount).service (w'.subscribers w.subscriberCount).snapshot
        (w'.received w.subscriberCount) told := by
      rw [hreceived, hself]
      exact haccount.later hl
    refine ⟨?_, ?_, ?_⟩
    · refine h.contents.later hi.frames.made hl (fun _ => ?_) fun frame hmem => .inl (hstack ▸ hmem)
      rw [hstates]
      exact ⟨rfl, rfl, fun _ hmem => hmem⟩
    · intro c hc
      by_cases he : c = w.subscriberCount
      · rw [he]
        exact ⟨told, hnew⟩
      · obtain ⟨told, htold⟩ := h.all c (by omega)
        rw [received, hother c he]
        exact ⟨told, htold.later hl⟩
    · intro service' t c hentry'
      by_cases he : c = w.subscriberCount
      · have hs : service' = service := by
          have hserv := (hi'.seats.seated service' t c hentry').1
          rw [he, hself] at hserv
          exact hserv.symm
        subst hs he
        rw [hself] at hnew
        refine ⟨told, ?_, ?_, ?_, ?_⟩
        · rw [hself]
          exact hnew
        · intro address u hu
          right
          rw [hl.holder haccount.made]
          refine hholder address u ?_
          rwa [hbooks.instanceAt] at hu
        · intro u hu hserv hmissed
          rw [hself] at hmissed
          rw [hbooks.instances] at hserv
          have hu : u < w.instanceCount := hbooks.count ▸ hu
          have hactive : (w.instances u).active = true := by simpa [hu] using hmissed
          exact .inl (holder_some (hholder _ u ((hi.registry.reached service' _ u).mpr ⟨hactive, hserv, rfl⟩))).1
        · rintro u ⟨update, ⟨cursor, -, hmem⟩, hann⟩
          rw [hstack] at hmem
          have hno := hharm _ hmem
          cases update with
          | replaced | spawned => exact absurd rfl hno
          | state | unavailable | closed => cases hann
      · have hentry := (hentries service' _ hentry').resolve_right fun hx => he hx.2
        obtain ⟨told, htold⟩ := h.seated service' t c hentry
        refine ⟨told, htold.later hi.registry hi'.registry hi'.frames hl hentry' (by rw [hother c he])
          (by rw [hother c he]) (by rw [received, received, hother c he]) ?_ ?_ ?_⟩
        · intro update u howed
          rw [Owed, hstack]
          exact howed
        · intro update u _ howed
          rw [Owed, hstack] at howed
          exact .inl howed
        · intro u hge hlt
          rw [hbooks.count] at hlt
          exact absurd hlt (Nat.not_lt_of_le hge)

end World

end Shuvpi.Provider
