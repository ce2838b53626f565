import Yfs.Base.Runs
import Yfs.Rpc.Connection

/-! PDUs over a TCP stream.

Two connections are the ends of a socket. Any number of threads send at either end, writes
take as much as they like, reads give what has come, and either end may fail at any point.
Of the stream this asks one thing: what an end has read is the beginning of what the other
end has written.

The receiver finds the ends of the PDUs by the sizes in them, and a size is all there is
to go by; but it is enough, since no framed PDU is the beginning of another one. So the
accepted PDUs are the first ones that were sent (`accepted_is_prefix`). -/
namespace Yfs.Rpc.Framing
open Base

inductive Side where
  | left
  | right
  deriving DecidableEq

def Side.other : Side → Side
  | .left => .right
  | .right => .left

section Link
variable {T : Type} [DecidableEq T]

/-- A step of one end. What it reads is the next of what the other end has written. -/
def step (s : Side → Conn T) (a : Side × ConnAct T) : Option (Side → Conn T) :=
  ((s a.1).step a.2).bind fun out =>
    if out.1.taken <+: (s a.1.other).written then some (Function.update s a.1 out.1) else none

/-! ### The stream -/

/-- Written bytes stay. -/
theorem written_mono {c c' : Conn T} {call : Option PollCall} (h : Does c c' call) : c.written <+: c'.written := by
  cases h with
  | put t p call hp hcall => exact List.prefix_refl _
  | same => exact List.prefix_refl _
  | clear t hout => exact List.prefix_refl _
  | close t halive => exact List.prefix_refl _
  | first t p r out halive hfree hfirst =>
    obtain ⟨m, -, rfl⟩ := Option.map_eq_some_iff.mp hfirst
    dsimp only
    split
    · exact List.prefix_append _ _
    · split
      · exact List.prefix_append _ _
      · exact List.prefix_append _ _
  | write r out hwrite =>
    obtain ⟨-, hs⟩ := Option.ite_none_left_eq_some.mp hwrite
    split at hs
    · cases hs
      exact List.prefix_refl _
    · obtain ⟨m, -, rfl⟩ := Option.map_eq_some_iff.mp hs
      split
      · exact List.prefix_append _ _
      · exact List.prefix_append _ _
  | read size body stale accept out hread =>
    obtain ⟨_, _, _, _, -, he⟩ := readCb_frame hread
    have hwritten : out.1.written = c.written := by rw [he]
    exact hwritten ▸ List.prefix_refl _

/-- Both ends are sound, and what one has read the other has written. -/
structure Linked (s : Side → Conn T) : Prop where
  sending : ∀ x, Sending (s x)
  receiving : ∀ x, Receiving (s x)
  first : ∀ x, DeadFirst (s x)
  taken : ∀ x, (s x).taken <+: (s x.other).written

omit [DecidableEq T] in
theorem linked_init : Linked (fun _ => {} : Side → Conn T) where
  sending _ := sending_init
  receiving _ := receiving_init
  first _ _ := nofun
  taken _ := List.prefix_refl _

theorem Linked.step {s s' : Side → Conn T} {a : Side × ConnAct T} (h : Linked s) (hs : step s a = some s') :
    Linked s' := by
  obtain ⟨x, act⟩ := a
  obtain ⟨out, hout, hs⟩ := Option.bind_eq_some_iff.mp hs
  obtain ⟨htaken, hs⟩ := Option.ite_none_right_eq_some.mp hs
  cases hs
  have hdoes : Does (s x) out.1 out.2 := step_does (h.first x) hout
  refine ⟨?_, ?_, ?_, fun y => ?_⟩
  · exact (Function.forall_update_iff s fun _ c => Sending c).mpr
      ⟨(h.sending x).does (h.first x) hdoes, fun y _ => h.sending y⟩
  · exact (Function.forall_update_iff s fun _ c => Receiving c).mpr
      ⟨(h.receiving x).does hdoes, fun y _ => h.receiving y⟩
  · exact (Function.forall_update_iff s fun _ c => DeadFirst c).mpr
      ⟨(h.first x).does hdoes, fun y _ => h.first y⟩
  · by_cases hy : y = x
    · -- the end that moved has read no further than the other has written
      have hother : x.other ≠ x := by cases x <;> decide
      rw [hy, Function.update_self, Function.update_of_ne hother]
      exact htaken
    · have hother : y.other = x := by
        cases x <;> cases y
        all_goals first | rfl | exact absurd rfl hy
      have hbefore := h.taken y
      rw [hother] at hbefore
      rw [Function.update_of_ne hy, hother, Function.update_self]
      exact hbefore.trans (written_mono hdoes)

/-- **PDU framing preserves messages.** In every run the PDUs accepted at one end are the
first of those obtained at the other, in that order, each the same but for its size in the
first four bytes. -/
theorem accepted_is_prefix {s : Side → Conn T} (h : Steps step anyMove (fun _ => {}) s) (x : Side) :
    ∃ sent later, (s x.other).obtained = sent ++ later ∧ (s x).accepted = sent.map frame ∧
      ∀ p ∈ sent, (frame p).length = p.bytes.length ∧ (frame p).take 4 = htonl p.bytes.length ∧
        (frame p).drop 4 = p.bytes.drop 4 := by
  have hlinked : Linked s := h.invariant linked_init fun _ _ _ hi _ hs => hi.step hs
  have hflat : (s x).accepted.flatten <+: ((s x.other).obtained.map frame).flatten :=
    ((hlinked.receiving x).taken.trans (hlinked.taken x)).trans (hlinked.sending x.other).written
  have hframes : ∀ b ∈ (s x.other).obtained.map frame, Framed b := by
    intro b hb
    obtain ⟨p, -, rfl⟩ := List.mem_map.mp hb
    exact framed_frame p
  obtain ⟨rest, hrest⟩ := framed_prefixFree.prefix_of_flatten (hlinked.receiving x).framed hframes hflat
  obtain ⟨sent, later, hobtained, hsent, -⟩ := List.map_eq_append_iff.mp hrest.symm
  exact ⟨sent, later, hobtained, hsent.symm, fun p _ => ⟨length_frame p, take_frame p, drop_frame p⟩⟩

end Link

/-- Two threads send. The first PDU is written in two parts, read in two parts, refused once
and then accepted; the second follows. -/
theorem accepted_is_prefix_two :
    ∃ s : Side → Conn Nat, Steps step anyMove (fun _ => {}) s ∧ (s .right).accepted.length = 2 ∧
      ∃ sent later, (s .left).obtained = sent ++ later ∧ (s .right).accepted = sent.map frame ∧
        ∀ p ∈ sent, (frame p).length = p.bytes.length ∧ (frame p).take 4 = htonl p.bytes.length ∧
          (frame p).drop 4 = p.bytes.drop 4 := by
  obtain ⟨s, hs, hlen⟩ : ∃ s : Side → Conn Nat, Steps step anyMove (fun _ => {}) s ∧
      (s .right).accepted.length = 2 :=
    Steps.exists_of_run
      [(.left, .send 0 (.small 1)), (.left, .send 1 (.small 2)), (.left, .channel 0 (.wrote 10)),
        (.right, .readCb (.got [0, 0, 0, 24]) (.got [1, 1, 1]) false true), (.left, .writeCb (.wrote 14)),
        (.left, .complete 0), (.left, .channel 1 (.wrote 24)),
        (.right, .readCb .again (.got (List.replicate 17 1)) false false),
        (.right, .readCb .again .again false true),
        (.right, .readCb (.got [0, 0, 0, 24]) (.got (List.replicate 20 2)) false true)]
      (by decide +kernel)
  exact ⟨s, hs, hlen, accepted_is_prefix hs .right⟩

end Yfs.Rpc.Framing
