import Yfs.Rpc.Server

/-! The life of a remembered reply.

A reply buffer is allocated for the reply of a handler and remembered in the reply window.
It is sent outside of `reply_window_m_`: by the job that ran the handler, and by each
duplicate that was answered DONE. It is freed when a request of the client is checked that
comes with an acknowledgement at or above its number.

Nothing in the server ties the two together: a client that has the reply from one send
acknowledges it while another is still under way. A reply outlives its sends when
acknowledgements come after them (`acksServed`, `reply_outlives_sends`). -/
namespace Yfs.Rpc
open Base
open Function (update update_of_ne update_self)

section Buffers
variable {B : Type} {s s' : Server B} {i : Nat} {req : Request B}

/-- A job has obtained the buffer of an entry of client `n` and still has to send it. -/
def HasToSend (s : Server B) (n : Nat) (it : ReplyT B) (j : Nat) : Prop :=
  ∃ req rep, s.jobs j = some ⟨req, .send rep⟩ ∧ req.cltNonce = n ∧ req.xid = it.xid ∧ it.buf = some rep

/-- How an arriving request goes with one that is there: what it acknowledges is served or
was acknowledged before, and where the other acknowledges it, that one has been checked. -/
def AckOrder (s : Server B) (req : Request B) (job : Job B) : Prop :=
  job.req.cltNonce = req.cltNonce →
    (job.req.xid ≤ req.xidRep → job.phase = .finished ∨ job.req.xid ≤ s.xidRepWindow req.cltNonce) ∧
    (req.xid ≤ job.req.xidRep → req.xid ≤ s.xidRepWindow req.cltNonce)

/-- The condition on a step. A request arrives when all copies of the requests it
acknowledges are served; late copies of requests that were acknowledged before may arrive,
and be under way, at any time. -/
def acksServed (s : Server B) : Act B → Prop
  | .arrive _ req =>
    req.cltNonce ≠ 0 → req.xidRep < req.xid ∧ ∀ j job, s.jobs j = some job → AckOrder s req job
  | _ => True

/-! ### What a step does to jobs and acknowledgements -/

/-- A job that has no buffer of the window: it was not checked yet, it has only an error to
send, or it is over. -/
def Phase.Bare : Phase B → Prop
  | .arrived | .finished => True
  | .send rep => rep.ret < 0
  | .new | .ran _ => False

/-- A job that is not finished goes on with its request. The acknowledgement of its client
may rise to the request's, a request that is acknowledged gets no buffer, and buffers come
into the window from handlers that have run. -/
structure GoesOn (s s' : Server B) (i : Nat) (req : Request B) (phase phase' : Phase B) : Prop where
  before : s.jobs i = some ⟨req, phase⟩
  unfinished : phase ≠ .finished
  jobs : s'.jobs = update s.jobs i (some ⟨req, phase'⟩)
  acks : ∀ n, s'.xidRepWindow n = s.xidRepWindow n ∨
    req.cltNonce = n ∧ s'.xidRepWindow n = max (s.xidRepWindow n) req.xidRep
  bare : req.cltNonce ≠ 0 → req.xid ≤ s'.xidRepWindow req.cltNonce → phase.Bare → phase'.Bare
  ran : ∀ rep, phase' = .ran rep → 0 ≤ rep.ret
  bufs : ∀ n, ∀ it ∈ s'.replyWindow n, ∀ rep, it.buf = some rep →
    (∃ it' ∈ s.replyWindow n, it'.buf = some rep) ∨ phase = .ran rep

theorem update_job {jobs : Nat → Option (Job B)} {j : Nat} {job job' : Job B}
    (h : update jobs i (some job) j = some job') : i = j ∧ job = job' ∨ i ≠ j ∧ jobs j = some job' := by
  by_cases hij : i = j
  · subst hij
    rw [update_self] at h
    exact .inl ⟨rfl, Option.some.inj h⟩
  · rw [update_of_ne (Ne.symm hij)] at h
    exact .inr ⟨hij, h⟩

theorem goesOn_setJob {phase phase' : Phase B}
    (hi : s.jobs i = some ⟨req, phase⟩) (hp : phase ≠ .finished) (hjobs : s'.jobs = s.jobs)
    (hacks : s'.xidRepWindow = s.xidRepWindow) (hwindow : s'.replyWindow = s.replyWindow)
    (hbare : req.cltNonce ≠ 0 → phase.Bare → phase'.Bare) (hran : ∀ rep, phase' = .ran rep → 0 ≤ rep.ret) :
    GoesOn s (s'.setJob i ⟨req, phase'⟩) i req phase phase' where
  before := hi
  unfinished := hp
  jobs := by
    change update s'.jobs i _ = _
    rw [hjobs]
  acks n := .inl (congrFun hacks n)
  bare hn _ := hbare hn
  ran := hran
  bufs n it hit rep hrep := by
    change it ∈ s'.replyWindow n at hit
    rw [hwindow] at hit
    exact .inl ⟨it, hit, hrep⟩

theorem goesOn_check (hi : s.jobs i = some ⟨req, .arrived⟩)
    (hs : s.checkJob i req = some s') : ∃ phase', GoesOn s s' i req .arrived phase' := by
  rcases checkJob_cases hs with ⟨-, -, rfl⟩ | ⟨hn, rfl⟩ | ⟨-, phase', hphase, rfl⟩
  · exact ⟨_, goesOn_setJob hi nofun rfl rfl rfl (fun _ _ => (by decide : oldsrvFailure < 0)) nofun⟩
  · exact ⟨_, goesOn_setJob hi nofun rfl rfl rfl (fun hne => absurd hn hne) nofun⟩
  · have hc := checked (s.replyWindow req.cltNonce) (s.xidRepWindow req.cltNonce) req.xid req.xidRep
    refine ⟨phase', hi, nofun, rfl, fun n => ?_, fun _ hle _ => ?_, fun rep hrep => ?_, fun n it hit rep hrep => ?_⟩
    · change update s.xidRepWindow req.cltNonce (s.check req).2.1 n = _ ∨ req.cltNonce = n ∧
        update s.xidRepWindow req.cltNonce (s.check req).2.1 n = _
      by_cases hreq : n = req.cltNonce
      · subst hreq
        rw [update_self]
        exact .inr ⟨rfl, hc.window⟩
      · exact .inl (update_of_ne hreq ..)
    · change req.xid ≤ update s.xidRepWindow req.cltNonce (s.check req).2.1 req.cltNonce at hle
      rw [update_self] at hle
      have hforgot : (s.check req).2.2 = .forgotten := hc.forgotten.mpr hle
      rw [hforgot] at hphase
      cases hphase
      exact (by decide : atmostonceFailure < 0)
    · subst hrep
      cases hstate : (s.check req).2.2 <;> simp [hstate, Server.phaseOf] at hphase
    · left
      change it ∈ update s.replyWindow req.cltNonce (s.check req).1 n at hit
      by_cases hreq : n = req.cltNonce
      · subst hreq
        rw [update_self] at hit
        rcases hc.added it hit with hold | ⟨-, rfl⟩
        · exact ⟨it, hold, hrep⟩
        · cases hrep
      · rw [update_of_ne hreq] at hit
        exact ⟨it, hit, hrep⟩

theorem goesOn_addReply {rep : Reply B}
    (hi : s.jobs i = some ⟨req, .ran rep⟩) :
    GoesOn s ({s with
      replyWindow := update s.replyWindow req.cltNonce
        (addReply req.xid rep (s.replyWindow req.cltNonce))}.setJob i ⟨req, .send rep⟩) i req (.ran rep)
          (.send rep) where
  before := hi
  unfinished := nofun
  jobs := rfl
  acks _ := .inl rfl
  bare _ _ := False.elim
  ran := nofun
  bufs n it hit rep' hrep := by
    change it ∈ update s.replyWindow req.cltNonce _ n at hit
    by_cases hreq : n = req.cltNonce
    · subst hreq
      rw [update_self] at hit
      rcases addReply_mem hit with hit | ⟨-, hbuf⟩
      · exact .inl ⟨it, hit, hrep⟩
      · cases hbuf.symm.trans hrep
        exact .inr rfl
    · rw [update_of_ne hreq] at hit
      exact .inl ⟨it, hit, hrep⟩

theorem step_goesOn {a : Act B} (hs : s.step a = some s') :
    (∃ i req, a = .arrive i req ∧ s.jobs i = none ∧ s' = s.setJob i ⟨req, .arrived⟩) ∨
      ∃ i req phase phase', GoesOn s s' i req phase phase' := by
  cases Server.step_does hs with
  | arrive hi => exact .inl ⟨_, _, rfl, hi, rfl⟩
  | check hi hs => exact .inr ⟨_, _, _, goesOn_check hi hs⟩
  | @run i ret result req hi =>
    refine .inr
      ⟨_, _, _, _, goesOn_setJob hi (fun h => by cases h) rfl rfl rfl (fun _ => False.elim) fun rep hrep => ?_⟩
    cases hrep
    unfold Server.reply
    split
    · exact Int.le_refl 0
    · exact Int.natCast_nonneg ret
  | pass hi hn =>
    exact .inr ⟨_, _, _, _, goesOn_setJob hi (fun h => by cases h) rfl rfl rfl (fun hne => absurd hn hne)
      fun _ h => by cases h⟩
  | addReply hi => exact .inr ⟨_, _, _, _, goesOn_addReply hi⟩
  | send hi =>
    exact .inr
      ⟨_, _, _, _, goesOn_setJob hi (fun h => by cases h) rfl rfl rfl (fun _ _ => trivial) fun _ h => by cases h⟩

/-! ### Acknowledged is served -/

/-- What an arrived request acknowledges is served or was acknowledged before, and no job of
an acknowledged request has a buffer. Buffers of the window are replies of handlers. -/
structure Served (s : Server B) : Prop where
  acked : ∀ j k job job', s.jobs j = some job → s.jobs k = some job' → job.req.cltNonce ≠ 0 →
    job.req.cltNonce = job'.req.cltNonce → job.req.xid ≤ job'.req.xidRep →
    job.phase = .finished ∨ job.req.xid ≤ s.xidRepWindow job.req.cltNonce
  bare : ∀ j job, s.jobs j = some job → job.req.cltNonce ≠ 0 →
    job.req.xid ≤ s.xidRepWindow job.req.cltNonce → job.phase.Bare
  ran : ∀ j req rep, s.jobs j = some ⟨req, .ran rep⟩ → 0 ≤ rep.ret
  bufs : ∀ n, ∀ it ∈ s.replyWindow n, ∀ rep, it.buf = some rep → 0 ≤ rep.ret

theorem served_init (nonce : Nat) (procs : Nat → Bool) : Served ({nonce, procs} : Server B) :=
  ⟨nofun, nofun, nofun, nofun⟩

theorem Served.arrive (h : Served s)
    (hreq : acksServed s (.arrive i req)) : Served (s.setJob i ⟨req, .arrived⟩) where
  acked j k job job' hj hk hne hclt hxid := by
    change job.phase = .finished ∨ job.req.xid ≤ s.xidRepWindow job.req.cltNonce
    obtain ⟨rfl, rfl⟩ | ⟨-, hj⟩ := update_job hj
    · obtain ⟨hself, hothers⟩ := hreq hne
      obtain ⟨rfl, rfl⟩ | ⟨-, hk⟩ := update_job hk
      · exact absurd hxid (Nat.not_le.mpr hself)
      · exact .inr ((hothers k job' hk hclt.symm).2 hxid)
    · obtain ⟨rfl, rfl⟩ | ⟨-, hk⟩ := update_job hk
      · rw [hclt] at hne ⊢
        exact ((hreq hne).2 j job hj hclt).1 hxid
      · exact h.acked j k job job' hj hk hne hclt hxid
  bare j job hj := by
    obtain ⟨rfl, rfl⟩ | ⟨-, hj⟩ := update_job hj
    · exact fun _ _ => trivial
    · exact h.bare j job hj
  ran j req' rep hj := by
    obtain ⟨rfl, ⟨⟩⟩ | ⟨-, hj⟩ := update_job hj
    exact h.ran j req' rep hj
  bufs := h.bufs

section
variable {s s' : Server B} {i : Nat} {req : Request B} {phase phase' : Phase B}

/-- The requests are those of before, and acknowledgements only rise. -/
theorem GoesOn.old (hs : GoesOn s s' i req phase phase') {j : Nat} {job' : Job B} (hj : s'.jobs j = some job') :
    ∃ job, s.jobs j = some job ∧ job.req = job'.req ∧ (job.phase = .finished → job'.phase = .finished) := by
  rw [hs.jobs] at hj
  obtain ⟨rfl, rfl⟩ | ⟨-, hj⟩ := update_job hj
  · exact ⟨_, hs.before, rfl, fun hf => absurd hf hs.unfinished⟩
  · exact ⟨job', hj, rfl, id⟩

theorem GoesOn.acks_le (hs : GoesOn s s' i req phase phase') (n : Nat) : s.xidRepWindow n ≤ s'.xidRepWindow n := by
  rcases hs.acks n with hsame | ⟨-, hmax⟩
  · exact Nat.le_of_eq hsame.symm
  · rw [hmax]
    exact Nat.le_max_left ..

/-- What is acknowledged after the step had no buffer before it: it was acknowledged then,
or is by this request. -/
theorem Served.bare_of_goesOn (h : Served s) (hs : GoesOn s s' i req phase phase') {j : Nat} {job : Job B}
    (hj : s.jobs j = some job) (hne : job.req.cltNonce ≠ 0)
    (hle : job.req.xid ≤ s'.xidRepWindow job.req.cltNonce) : job.phase.Bare := by
  by_cases hold : job.req.xid ≤ s.xidRepWindow job.req.cltNonce
  · exact h.bare j job hj hne hold
  · rcases hs.acks job.req.cltNonce with hsame | ⟨hclt, hmax⟩
    · exact absurd (hsame ▸ hle) hold
    · have hack : job.req.xid ≤ req.xidRep := by omega
      rcases h.acked j i job _ hj hs.before hne hclt.symm hack with hfin | hle
      · rw [hfin]
        trivial
      · exact absurd hle hold

theorem Served.goesOn (h : Served s) (hs : GoesOn s s' i req phase phase') : Served s' where
  acked j k job₁ job₂ hj hk hne hclt hxid := by
    obtain ⟨job, hj, hreq, hfin⟩ := hs.old hj
    obtain ⟨job', hk, hreq', -⟩ := hs.old hk
    rw [← hreq] at hne hclt hxid ⊢
    rw [← hreq'] at hclt hxid
    exact (h.acked j k job job' hj hk hne hclt hxid).imp hfin fun hle => Nat.le_trans hle (hs.acks_le _)
  bare j job hj hne hle := by
    rw [hs.jobs] at hj
    obtain ⟨rfl, rfl⟩ | ⟨-, hj⟩ := update_job hj
    · exact hs.bare hne hle (h.bare_of_goesOn hs hs.before hne hle)
    · exact h.bare_of_goesOn hs hj hne hle
  ran j req' rep hj := by
    rw [hs.jobs] at hj
    obtain ⟨rfl, hjob⟩ | ⟨-, hj⟩ := update_job hj
    · cases hjob
      exact hs.ran rep rfl
    · exact h.ran j req' rep hj
  bufs n it hit rep hrep := by
    rcases hs.bufs n it hit rep hrep with ⟨it', hit', hrep'⟩ | rfl
    · exact h.bufs n it' hit' rep hrep'
    · exact h.ran i req rep hs.before

end

theorem Served.step {a : Act B} (h : Served s) (ha : acksServed s a)
    (hs : s.step a = some s') : Served s' := by
  rcases step_goesOn hs with ⟨i, req, rfl, -, rfl⟩ | ⟨i, req, phase, phase', hgoes⟩
  · exact h.arrive ha
  · exact h.goesOn hgoes

/-- What a duplicate check drops is acknowledged afterwards. -/
theorem dropped_acked (hs : s.step (.check i) = some s') {n : Nat}
    {it : ReplyT B} (hit : it ∈ s.replyWindow n) (hgone : it ∉ s'.replyWindow n) :
    n ≠ 0 ∧ it.xid ≤ s'.xidRepWindow n := by
  cases Server.step_does hs with
  | @check _ req _ _ hs =>
    rcases checkJob_cases hs with ⟨-, -, rfl⟩ | ⟨-, rfl⟩ | ⟨hn, phase, -, rfl⟩
    · exact absurd hit hgone
    · exact absurd hit hgone
    · have hc := checked (s.replyWindow req.cltNonce) (s.xidRepWindow req.cltNonce) req.xid req.xidRep
      change it ∉ update s.replyWindow req.cltNonce (s.check req).1 n at hgone
      change n ≠ 0 ∧ it.xid ≤ update s.xidRepWindow req.cltNonce (s.check req).2.1 n
      by_cases hreq : n = req.cltNonce
      · subst hreq
        rw [update_self] at hgone ⊢
        exact ⟨hn, (hc.kept it hit).resolve_left hgone⟩
      · rw [update_of_ne hreq] at hgone
        exact absurd hit hgone

/-- **A remembered reply outlives its sends** in every run where acknowledgements come
after them: when a duplicate check frees a buffer, no job that obtained it still has to
send it. -/
theorem reply_outlives_sends {nonce : Nat} {procs : Nat → Bool} {s s' : Server B} {i n : Nat}
    {it : ReplyT B} (h : Steps Server.step acksServed {nonce, procs} s)
    (hs : s.step (.check i) = some s') (hit : it ∈ s.replyWindow n) (hgone : it ∉ s'.replyWindow n)
    (j : Nat) : ¬ HasToSend s' n it j := by
  have hserved : Served s := h.invariant (served_init nonce procs) fun _ _ _ hi ha hs => hi.step ha hs
  have hafter : Served s' := hserved.step (a := .check i) trivial hs
  rintro ⟨req, rep, hj, rfl, hxid, hbuf⟩
  obtain ⟨hz, hle⟩ := dropped_acked hs hit hgone
  have herror : rep.ret < 0 := hafter.bare j _ hj hz (hxid ▸ hle)
  have hreply : 0 ≤ rep.ret := hserved.bufs _ it hit rep hbuf
  omega

/-! ### Runs of a bounded number of jobs -/

/-- The condition with only the jobs below `N` looked at, where no others arrive. -/
def acksServedBelow (N : Nat) (s : Server B) : Act B → Prop
  | .arrive i req =>
    i < N ∧ (req.cltNonce ≠ 0 → req.xidRep < req.xid ∧ ∀ j < N, ∀ job ∈ s.jobs j, AckOrder s req job)
  | _ => True

instance [DecidableEq B] (s : Server B) (req : Request B) (job : Job B) : Decidable (AckOrder s req job) :=
  inferInstanceAs (Decidable (_ → _))

instance [DecidableEq B] (N : Nat) (s : Server B) : (a : Act B) → Decidable (acksServedBelow N s a)
  | .arrive _ _ => inferInstanceAs (Decidable (_ ∧ _))
  | .check _ | .run .. | .addReply _ | .send _ => isTrue trivial

theorem acksServed_of_below {N nonce : Nat} {procs : Nat → Bool}
    (h : Steps Server.step (acksServedBelow N) {nonce, procs} s) :
    Steps Server.step acksServed {nonce, procs} s := by
  refine (h.mono_of_invariant (I := fun s => ∀ j, N ≤ j → s.jobs j = none) (fun _ _ => rfl) ?_ ?_).1
  · intro s a s' hbelow ha hs j hj
    rcases step_goesOn hs with ⟨i, req, rfl, -, rfl⟩ | ⟨i, req, phase, phase', hgoes⟩
    · rw [setJob_ne (Nat.ne_of_gt (Nat.lt_of_lt_of_le ha.1 hj))]
      exact hbelow j hj
    · have hji : j ≠ i := fun he => by cases (hbelow j hj).symm.trans (he ▸ hgoes.before)
      rw [hgoes.jobs, update_of_ne hji]
      exact hbelow j hj
  · intro s a hbelow ha
    cases a with
    | arrive i req =>
      refine fun hz => ⟨(ha.2 hz).1, fun j job hj => ?_⟩
      by_cases hjN : j < N
      · exact (ha.2 hz).2 j hjN job hj
      · cases (hbelow j (Nat.le_of_not_lt hjN)).symm.trans hj
    | check i => trivial
    | run i ret result => trivial
    | addReply i => trivial
    | send i => trivial

/-- Client 7 sends request 1 twice, and both copies are served before its request 2
acknowledges the reply. Then a late third copy arrives and is forgotten, and while that is
still to be answered the check of request 3 frees the reply of request 2. -/
theorem reply_outlives_sends_late :
    ∃ s s' : Server Nat, Steps Server.step acksServed {nonce := 3, procs := fun _ => true} s ∧
      s.jobs 3 = some ⟨⟨1, 5, 7, 3, 0, 0⟩, .send ⟨1, atmostonceFailure, .empty⟩⟩ ∧ s.step (.check 4) = some s' ∧
      ∃ it ∈ s.replyWindow 7, it.buf.isSome ∧ it ∉ s'.replyWindow 7 ∧ ∀ j, ¬ HasToSend s' 7 it j := by
  obtain ⟨s, hs, hlate, it, hit, hbuf, hgone⟩ : ∃ s : Server Nat,
      Steps Server.step (acksServedBelow 5) {nonce := 3, procs := fun _ => true} s ∧
        s.jobs 3 = some ⟨⟨1, 5, 7, 3, 0, 0⟩, .send ⟨1, atmostonceFailure, .empty⟩⟩ ∧
        ∃ it ∈ s.replyWindow 7, it.buf.isSome ∧
          (s.step (.check 4)).any (fun s' => decide (it ∉ s'.replyWindow 7)) = true :=
    Steps.exists_of_run
      [.arrive 0 ⟨1, 5, 7, 3, 0, 0⟩, .check 0, .run 0 0 9, .addReply 0, .arrive 1 ⟨1, 5, 7, 3, 0, 0⟩,
        .check 1, .send 1, .send 0, .arrive 2 ⟨2, 5, 7, 3, 1, 0⟩, .check 2, .arrive 3 ⟨1, 5, 7, 3, 0, 0⟩, .check 3,
        .run 2 0 8, .addReply 2, .send 2, .arrive 4 ⟨3, 5, 7, 3, 2, 0⟩]
      (by decide)
  rw [Option.any_eq_true] at hgone
  obtain ⟨s', hs', hgone⟩ := hgone
  have hrun := acksServed_of_below hs
  exact ⟨s, s', hrun, hlate, hs', it, hit, hbuf, of_decide_eq_true hgone, fun j =>
    reply_outlives_sends hrun hs' hit (of_decide_eq_true hgone) j⟩

/-- The first copy of request 1 is about to send its reply. The second is answered DONE
and sends it, the client acknowledges it with request 2, and the check of request 2 frees
the buffer that the first copy still has to send. -/
theorem reply_freed_before_send :
    ∃ s s' : Server Nat, Steps Server.step anyMove {nonce := 3, procs := fun _ => true} s ∧
      s.step (.check 2) = some s' ∧
      ∃ it ∈ s.replyWindow 7, it ∉ s'.replyWindow 7 ∧ HasToSend s' 7 it 0 := by
  obtain ⟨s, hs, it, hit, hany⟩ : ∃ s : Server Nat,
      Steps Server.step anyMove {nonce := 3, procs := fun _ => true} s ∧
        ∃ it ∈ s.replyWindow 7, (s.step (.check 2)).any (fun s' => decide (it ∉ s'.replyWindow 7 ∧
          it.buf = some ⟨1, 0, .value 9⟩ ∧ it.xid = 1 ∧
          s'.jobs 0 = some ⟨⟨1, 5, 7, 3, 0, 0⟩, .send ⟨1, 0, .value 9⟩⟩)) = true :=
    Steps.exists_of_run
      [.arrive 0 ⟨1, 5, 7, 3, 0, 0⟩, .check 0, .run 0 0 9, .addReply 0, .arrive 1 ⟨1, 5, 7, 3, 0, 0⟩,
        .check 1, .send 1, .arrive 2 ⟨2, 5, 7, 3, 1, 0⟩]
      (by decide)
  rw [Option.any_eq_true] at hany
  obtain ⟨s', hs', hany⟩ := hany
  obtain ⟨hgone, hbuf, hxid, hjob⟩ := of_decide_eq_true hany
  exact ⟨s, s', hs, hs', it, hit, hgone, _, _, hjob, rfl, hxid.symm, hbuf⟩

end Buffers

end Yfs.Rpc
