import Yfs.Core.ReplyBuffers
import Yfs.Library.Simulation
import Yfs.Theory.CallResults

/-!
# Results and the Buffers They Are Sent From

A call that does not fail returns what a handler has returned for that call, if no reply is
written from a buffer that was freed.

Under this condition the wire carries nothing but what the instances have in `sent`: a call of
`send` starts with a reply that is there, and the buffer keeps it. So a run with buffers is a
run of the system of restarts, in which a reply arrives as soon as it is sent, and what is known
of the results there holds here.

The condition cannot be left out. A call that times out acknowledges its xid like one that was
answered, so the next call of the client frees a reply that the server may still be sending, and
what the client reads then need not have been returned by any handler.

## Main definitions

* `Restarts.Sent`: An instance has sent a reply.
* `OnWire`: What is on the wire was sent.
* `Buffered.Log`: A run with what the handlers have returned.

## Theorems

* `receive_sent`, `finish_sent`: `dispatch` adds to what was sent.
* `sent_step`: What was sent stays so.
* `onWire_step`: One action.
* `recorded_of_intact`: A run without writes from freed buffers is one of the system of restarts.
* `result_from_handler`: A result is that of a handler for the call.
-/

namespace Yfs

namespace Rpc

variable {C K T : Type}

/-! ## What was sent -/

namespace Dispatcher

variable [DecidableEq K] {s s' : Dispatcher K} {k : K}

/-- Before the handler, at most one reply is sent. -/
theorem receive_sent {r : Request} {d : Dispatched K} (h : s.receive k r = some d) :
    s.sent <+: d.srv.sent := by
  unfold receive at h
  split at h
  · cases h
    exact List.prefix_append _ _
  · split at h
    · cases h
    · split at h
      · cases h
        exact List.prefix_refl _
      · simp only [dispatchOnce, Option.bind_eq_bind, Option.bind_eq_some_iff] at h
        rcases h with ⟨s₁, hsave, ⟨st, win, bound⟩, _, h⟩
        have hsent := (saveConn_frame hsave).2
        dsimp only at h
        split at h
        · cases h
          change s.sent <+: s₁.sent
          rw [hsent]
        · rcases Option.map_eq_some_iff.mp h with ⟨s₃, hdec, rfl⟩
          change s.sent <+: s₃.sent
          rw [(decref_frame hdec).2.2, ← hsent]
          -- The switch sends the remembered reply, a failure or nothing.
          cases st with
          | new => exact List.prefix_refl _
          | inprogress => exact List.prefix_refl _
          | done rep => exact List.prefix_append _ _
          | forgotten => exact List.prefix_append _ _

/-- After the handler, its reply is sent. -/
theorem finish_sent {r : Request} {ret : Int} {body : List UInt8}
    (h : s.finish k r ret body = some s') : s.sent <+: s'.sent := by
  unfold finish at h
  split at h
  · cases h
  · rcases Option.bind_eq_some_iff.mp h with ⟨⟨k', s₂⟩, hlatest, hdec⟩
    have hsent : s₂.sent = s.sent := by
      rw [(latestConn_frame hlatest).2.1]
      split <;> rfl
    rw [(decref_frame hdec).2.2, ← hsent]
    exact List.prefix_append _ _

end Dispatcher

namespace Restarts

/-- Instance `i` has sent a reply on connection `k`. -/
def Sent (s : Restarts C K T) (i : Nat) (k : K) (rep : Reply) : Prop :=
  ∃ inst, s.instances[i]? = some inst ∧ (k, rep) ∈ inst.srv.sent

variable {s s' : Restarts C K T} {i : Nat} {k : K} {rep : Reply}

theorem Sent.congr (h : s.Sent i k rep) (heq : s'.instances = s.instances) : s'.Sent i k rep := by
  unfold Sent
  rw [heq]
  exact h

/-- An action of one instance that does not take back what it has sent. -/
theorem Sent.atInstance (h : s.Sent i k rep) {j : Nat} {inst inst' : Instance K}
    (hget : s.instances[j]? = some inst) (hsent : inst.srv.sent <+: inst'.srv.sent) :
    Sent { s with instances := s.instances.set j inst' } i k rep := by
  rcases h with ⟨inst₀, hinst₀, hmem⟩
  by_cases hij : j = i
  · subst hij
    rw [hget, Option.some.injEq] at hinst₀
    subst hinst₀
    refine ⟨inst', ?_, hsent.subset hmem⟩
    exact List.getElem?_set_self (List.getElem?_eq_some_iff.mp hget).1
  · refine ⟨inst₀, ?_, hmem⟩
    dsimp only
    rw [List.getElem?_set_ne hij]
    exact hinst₀

variable [DecidableEq C] [DecidableEq K] [DecidableEq T] {w : Wiring C K}

/-- What was sent stays so, whatever is done next. -/
theorem sent_step {a : RestartAction C K T} (hs : s.step w a = some s') (h : s.Sent i k rep) :
    s'.Sent i k rep := by
  cases a with
  | restart nonce procs =>
      simp only [step, Option.ite_none_right_eq_some, Option.some.injEq] at hs
      rcases hs with ⟨_, rfl⟩
      rcases h with ⟨inst, hinst, hmem⟩
      refine ⟨inst, ?_, hmem⟩
      dsimp only
      rw [List.getElem?_append_left (List.getElem?_eq_some_iff.mp hinst).1]
      exact hinst
  | call1 c t proc args =>
      simp only [step, Option.ite_none_right_eq_some] at hs
      rcases hs with ⟨_, hs⟩
      split at hs
      · cases hs
        exact h.congr rfl
      · cases hs
        exact h
  | gotPdu j k' rep' =>
      simp only [step, Option.bind_eq_bind, Option.bind_eq_some_iff,
        Option.ite_none_right_eq_some, Option.some.injEq] at hs
      rcases hs with ⟨inst, _, _, rfl⟩
      exact h.congr rfl
  | endCall c t =>
      rcases Option.map_eq_some_iff.mp hs with ⟨p, _, rfl⟩
      exact h.congr rfl
  | bindReturns c t =>
      rcases Option.map_eq_some_iff.mp hs with ⟨p, _, rfl⟩
      exact h.congr rfl
  | cancel c =>
      cases hs
      exact h.congr rfl
  | dispatch j k' r =>
      simp only [step, Option.ite_none_right_eq_some] at hs
      rcases atInstance_some hs.2 with ⟨inst, inst', hget, hd, rfl⟩
      rcases Option.map_eq_some_iff.mp hd with ⟨d, hreceive, hinst'⟩
      refine h.atInstance hget ?_
      have hsrv : inst'.srv = d.srv := by
        rw [← hinst']
        cases d <;> rfl
      rw [hsrv]
      exact Dispatcher.receive_sent hreceive
  | handlerReturns j k' r ret body =>
      rcases atInstance_some hs with ⟨inst, inst', hget, hd, rfl⟩
      simp only [Instance.handlerReturns, Option.ite_none_right_eq_some] at hd
      rcases Option.map_eq_some_iff.mp hd.2 with ⟨srv, hfinish, rfl⟩
      exact h.atInstance hget (Dispatcher.finish_sent hfinish)
  | link j k' l =>
      rcases atInstance_some hs with ⟨inst, inst', hget, hd, rfl⟩
      cases hd
      exact h.atInstance hget (List.prefix_refl _)

end Restarts

/-! ## What is on the wire -/

/-- The replies that are being sent and those on the wire were sent by the instance. -/
structure OnWire (s : Buffered C K T) : Prop where
  flights : ∀ f ∈ s.flights, s.sys.Sent f.i f.conn f.reply
  wire : ∀ x ∈ s.wire, s.sys.Sent x.1 x.2.1 x.2.2

theorem onWire_new : OnWire (Buffered.new C K T) where
  flights := fun _ hf => absurd hf List.not_mem_nil
  wire := fun _ hx => absurd hx List.not_mem_nil

/-- What is done to the buffer of a reply leaves the call of `send` as it is. -/
theorem Flight.prune_same (i : Nat) (inst : Instance K) (f : Flight K) :
    (f.prune i inst).i = f.i ∧ (f.prune i inst).conn = f.conn ∧
      (f.prune i inst).reply = f.reply := by
  unfold prune
  split
  · split <;> exact ⟨rfl, rfl, rfl⟩
  · exact ⟨rfl, rfl, rfl⟩

theorem Flight.replace_same (i n xid : Nat) (f : Flight K) :
    (f.replace i n xid).i = f.i ∧ (f.replace i n xid).conn = f.conn ∧
      (f.replace i n xid).reply = f.reply := by
  unfold replace
  split <;> exact ⟨rfl, rfl, rfl⟩

/-- A half of `dispatch` starts to send what it has added to `sent`. -/
theorem onWire_flightsAfter {s : Buffered C K T} (h : OnWire s) {sys : Restarts C K T} {i : Nat}
    {r : Request} {buffer : Instance K → Flight K → Flight K}
    (hkept : ∀ j k rep, s.sys.Sent j k rep → sys.Sent j k rep)
    (hbuffer : ∀ inst f, (buffer inst f).i = f.i ∧ (buffer inst f).conn = f.conn ∧
      (buffer inst f).reply = f.reply) :
    OnWire { s with sys, flights := s.flightsAfter sys i r buffer } := by
  refine ⟨fun f hf => ?_, fun x hx => hkept _ _ _ (h.wire x hx)⟩
  dsimp only [Buffered.flightsAfter] at hf
  split at hf
  -- The calls of `send` before the step, with what has become of their buffers, and the new one.
  · rename_i inst inst' _ hget'
    rcases List.mem_append.mp hf with hf | hf
    · rcases List.mem_map.mp hf with ⟨f₀, hf₀, rfl⟩
      rcases hbuffer inst' f₀ with ⟨hi, hconn, hreply⟩
      rw [hi, hconn, hreply]
      exact hkept _ _ _ (h.flights f₀ hf₀)
    · rcases List.mem_map.mp hf with ⟨p, hp, rfl⟩
      exact ⟨inst', hget', List.mem_of_mem_drop hp⟩
  · exact hkept _ _ _ (h.flights f hf)

section Step

variable [DecidableEq C] [DecidableEq K] [DecidableEq T] {w : Wiring C K} {s s' : Buffered C K T}

/-- One action that writes nothing from a freed buffer. It is one of the system of restarts, or
    leaves that as it is. -/
theorem onWire_step {a : SendAction C K T} (h : OnWire s) (hok : s.intact a = true)
    (hs : s.step w a = some s') :
    OnWire s' ∧ ((∃ a', a = .act a' ∧ s.sys.step w a' = some s'.sys) ∨
      (∀ a', a ≠ .act a') ∧ s'.sys = s.sys) := by
  -- An action of the parties that neither sends nor receives.
  have hplain : ∀ a' : RestartAction C K T,
      ((s.sys.step w a').map fun sys => { s with sys }) = some s' →
      OnWire s' ∧ s.sys.step w a' = some s'.sys := by
    intro a' ha'
    rcases Option.map_eq_some_iff.mp ha' with ⟨sys, hsys, rfl⟩
    have hkept : ∀ j k rep, s.sys.Sent j k rep → sys.Sent j k rep :=
      fun _ _ _ => Restarts.sent_step hsys
    exact ⟨⟨fun f hf => hkept _ _ _ (h.flights f hf), fun x hx => hkept _ _ _ (h.wire x hx)⟩, hsys⟩
  cases a with
  | act a' =>
      suffices hboth : OnWire s' ∧ s.sys.step w a' = some s'.sys from
        ⟨hboth.1, Or.inl ⟨a', rfl, hboth.2⟩⟩
      cases a' with
      | dispatch i k r =>
          rcases Option.map_eq_some_iff.mp hs with ⟨sys, hsys, rfl⟩
          exact ⟨onWire_flightsAfter h (fun _ _ _ => Restarts.sent_step hsys)
            (fun inst f => f.prune_same i inst), hsys⟩
      | handlerReturns i k r ret body =>
          rcases Option.map_eq_some_iff.mp hs with ⟨sys, hsys, rfl⟩
          exact ⟨onWire_flightsAfter h (fun _ _ _ => Restarts.sent_step hsys)
            (fun _ f => f.replace_same i r.cltNonce r.xid), hsys⟩
      | gotPdu i k rep =>
          simp only [Buffered.step, Option.ite_none_right_eq_some, Option.some.injEq] at hs
          rcases hs with ⟨hwire, rfl⟩
          -- The reply that arrives was sent, so it can arrive there too.
          rcases h.wire _ hwire with ⟨inst, hget, hmem⟩
          refine ⟨⟨fun f hf => (h.flights f hf).congr rfl, fun x hx => (h.wire x hx).congr rfl⟩, ?_⟩
          simp [Restarts.step, hget, hmem]
      | restart nonce procs => exact hplain _ hs
      | call1 c t proc args => exact hplain _ hs
      | endCall c t => exact hplain _ hs
      | bindReturns c t => exact hplain _ hs
      | cancel c => exact hplain _ hs
      | link i k l => exact hplain _ hs
  -- Here the condition is needed: the bytes of a buffer that is still there are those of the reply.
  | written j rep =>
      simp only [Buffered.step, Option.bind_eq_bind, Option.bind_eq_some_iff,
        Option.ite_none_right_eq_some, Option.some.injEq] at hs
      rcases hs with ⟨f, hf, hbytes, rfl⟩
      have hreply : rep = f.reply := by
        rcases hbytes with hfreed | hreply
        · simp [Buffered.intact, hf, hfreed] at hok
        · exact hreply
      refine ⟨⟨fun f' hf' => h.flights f' (List.mem_of_mem_eraseIdx hf'), fun x hx => ?_⟩,
        Or.inr ⟨fun _ => by simp only [ne_eq, reduceCtorEq, not_false_eq_true], rfl⟩⟩
      rcases List.mem_append.mp hx with hx | hx
      · exact h.wire x hx
      · rw [List.mem_singleton.mp hx, hreply]
        exact h.flights f (List.mem_of_getElem? hf)
  | failed j =>
      simp only [Buffered.step, Option.bind_eq_bind, Option.bind_eq_some_iff,
        Option.some.injEq] at hs
      rcases hs with ⟨f, _, rfl⟩
      exact ⟨⟨fun f' hf' => h.flights f' (List.mem_of_mem_eraseIdx hf'), h.wire⟩,
        Or.inr ⟨fun _ => by simp only [ne_eq, reduceCtorEq, not_false_eq_true], rfl⟩⟩

end Step

namespace Buffered

/-- A run and what its handlers have returned, oldest first. -/
structure Log (C K T : Type) where
  sends : Buffered C K T
  returned : List (Return K)

namespace Log

def new (C K T : Type) : Log C K T where
  sends := Buffered.new C K T
  returned := []

def record : SendAction C K T → List (Return K)
  | .act a => Recorded.record a
  | _ => []

/-- Without the buffers. -/
def recorded (s : Log C K T) : Recorded C K T where
  sys := s.sends.sys
  returned := s.returned

variable [DecidableEq C] [DecidableEq K] [DecidableEq T]

def step (w : Wiring C K) (s : Log C K T) (a : SendAction C K T) : Option (Log C K T) :=
  (s.sends.step w a).map fun sends => ⟨sends, s.returned ++ record a⟩

/-- Without writes from freed buffers, a run is one in which replies arrive as soon as they are
    sent. -/
theorem recorded_of_intact {w : Wiring C K} {s : Log C K T}
    (h : Trace.Reaches (step w) (fun s a => s.sends.intact a = true) (new C K T) s) :
    Trace.Reaches (Recorded.step w) Trace.Always (Recorded.new C K T) s.recorded := by
  have hstep : ∀ (s : Log C K T) a s' (t : Recorded C K T),
      Trace.Reaches (step w) (fun s a => s.sends.intact a = true) (new C K T) s →
      t = s.recorded ∧ OnWire s.sends → s.sends.intact a = true → s.step w a = some s' →
      (t = s'.recorded ∧ OnWire s'.sends) ∨
        ∃ b t', Trace.Always t b ∧ Recorded.step w t b = some t' ∧
          t' = s'.recorded ∧ OnWire s'.sends := by
    rintro s a s' t _ ⟨rfl, hwire⟩ hok hs
    rcases Option.map_eq_some_iff.mp hs with ⟨sends, hsends, rfl⟩
    rcases onWire_step hwire hok hsends with ⟨hwire', ⟨a', rfl, hsys⟩ | ⟨hnot, hsame⟩⟩
    -- A step of the parties is recorded on both sides.
    · refine Or.inr ⟨a', _, trivial, ?_, rfl, hwire'⟩
      simp only [Recorded.step, recorded, record, hsys, Option.map_some]
    · refine Or.inl ⟨?_, hwire'⟩
      -- No handler returns in what the network does.
      have hrecord : (record a : List (Return K)) = [] := by
        cases a with
        | act a' => exact absurd rfl (hnot a')
        | written j rep => rfl
        | failed j => rfl
      simp only [recorded, hsame, hrecord, List.append_nil]
  rcases Trace.simulation (fun s t => t = s.recorded ∧ OnWire s.sends)
    ⟨rfl, onWire_new⟩ hstep h with ⟨t, ht, rfl, _⟩
  exact ht

end Log

variable [DecidableEq C] [DecidableEq K] [DecidableEq T]

/-- A bound client and its first call, with the reply to the bind written. -/
def boundCall : List (SendAction Bool Bool Unit) :=
  [.act (.restart 5 [2]), .act (.link 0 false ⟨9, false, (0, 0)⟩),
    .act (.call1 false () RpcConst.bind [0, 0, 0, 0]),
    .act (.dispatch 0 false ⟨1, 1, 7, 0, 0, [0, 0, 0, 0]⟩),
    .act (.handlerReturns 0 false ⟨1, 1, 7, 0, 0, [0, 0, 0, 0]⟩ 0 [0, 0, 0, 5]),
    .written 0 ⟨1, 0, [0, 0, 0, 5]⟩, .act (.gotPdu 0 false ⟨1, 0, [0, 0, 0, 5]⟩),
    .act (.endCall false ()), .act (.bindReturns false ()), .act (.call1 false () 2 [])]

/-- A call that timed out while its reply was being sent. The next one frees the buffer, and gets
    for a result what was written from it; its own handler has not returned. -/
example : (Trace.run (Log.step (Restarts.pair 7 9)) (fun _ _ => true)
    (Log.new Bool Bool Unit) (boundCall ++ [
      .act (.dispatch 0 false ⟨2, 2, 7, 5, 1, []⟩),
      .act (.handlerReturns 0 false ⟨2, 2, 7, 5, 1, []⟩ 3 [9]),
      .act (.endCall false ()), .act (.call1 false () 2 [4]),
      .act (.dispatch 0 false ⟨3, 2, 7, 5, 2, [4]⟩), .written 0 ⟨3, 0, [66]⟩,
      .act (.gotPdu 0 false ⟨3, 0, [66]⟩)])).map
      (fun s => ((s.sends.sys.peers false).thread (), s.returned.map fun x => x.request.xid))
    = some (.done ⟨3, 2, 7, 5, 2, [4]⟩ 0 [66], [1, 2]) := by
  decide +kernel

end Buffered

end Rpc

end Yfs
