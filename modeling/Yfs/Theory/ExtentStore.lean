import Yfs.Core.YfsClient
import Yfs.Library.Trace
import Yfs.Library.TwoPhase

/-!
# The Store behind the Extents

What the extents are for: a partial map from inums to contents. `Store` answers the
calls of `extent_client` from such a map, with no times and with the size attribute
computed from the content.

`Sees` says, for one extent, that a client in front of a server stands for one value
of the store. The value is the cached content or else the server's. A dirty extent has
both halves cached; a clean one agrees with the server; and a cached size is the size
of that value even where the content is not cached, since the two halves are filled
separately.

Every operation of the client keeps `Sees` at the extent it works on, leaves the others
alone, and answers as the store does, up to the times. So a server used directly and
a client in front of a server both implement the store (`direct_answers`,
`cached_answers`).

## Main definitions

* `Store`, `Store.serve`, `Store.act`: The abstract extents.
* `SameAnswer`: Answers that differ at most in the times.
* `Synced`: The two maps of the server agree on an extent.
* `Sees`, `Uncached`: What a client's view of one extent is.
* `Direct.Holds`, `Cached.Holds`, `Cached.content`: The store that a state stands for.

## Theorems

* `sees_fetch`, `sees_fetchattr`, `sees_put`: The client's operations keep its view.
* `fetch_answer`, `fetchattr_answer`: They answer from it.
* `writeBack_contentMap`, `uncached_writeBack`: A flush moves the value to the server.
* `Cached.sameAt_serve`, `Cached.serve_server`: What a call leaves alone.
* `Cached.serve_sees`: A call is answered from the value.
* `direct_answers`, `cached_answers`: Both implement the store.
* `Cached.reachable_holds`: Every reachable state stands for its contents.
-/

namespace Yfs

open Extent Txn

/-- The extents as a map from inums to contents. -/
abbrev Store := Inum → Option Bytes

def Store.get (v : Option Bytes) : Status × Bytes :=
  match v with
  | some buf => (.ok, buf)
  | none => (.ioerr, [])

def Store.getattr (v : Option Bytes) : Status × Attr :=
  match v with
  | some buf => (.ok, ⟨0, 0, 0, sizeAttr buf⟩)
  | none => (.ioerr, Attr.unset)

def Store.serve (eid : Inum) : (o : ExtentCall) → Store → o.Answer × Store
  | .get, f => (Store.get (f eid), f)
  | .getattr, f => (Store.getattr (f eid), f)
  | .put buf, f => (.ok, Function.update f eid (some buf))

/-- A call on one extent, by its content. -/
def Store.act : (o : ExtentCall) → Option Bytes → o.Answer × Option Bytes
  | .get, v => (Store.get v, v)
  | .getattr, v => (Store.getattr v, v)
  | .put buf, _ => (.ok, some buf)

/-- The same answer apart from times. -/
def SameAnswer : (o : ExtentCall) → o.Answer → o.Answer → Prop
  | .get, x, y => x = y
  | .getattr, x, y => x.1 = y.1 ∧ x.2.size = y.2.size
  | .put _, x, y => x = y

theorem SameAnswer.refl (o : ExtentCall) (x : o.Answer) : SameAnswer o x x := by
  cases o with
  | get => rfl
  | getattr => exact ⟨rfl, rfl⟩
  | put buf => rfl

/-! ## The server -/

/-- The size attribute of an extent is that of its content, and an extent without
    content has no attributes. -/
def Synced (srv : ExtentServer) (eid : Inum) : Prop :=
  (srv.attrMap eid).map (·.size) = (srv.contentMap eid).map sizeAttr

namespace ExtentServer

theorem synced_new (now : UInt32) (eid : Inum) : Synced (new now) eid := by
  simp only [Synced, new, Function.update_apply]
  split
  · rfl
  · rfl

/-- A `get` changes no content. -/
theorem get_contentMap (srv : ExtentServer) (now : UInt32) (id : Inum) :
    (srv.get now id).2.contentMap = srv.contentMap := by
  unfold get
  split <;> rfl

/-- A `get` only changes an access time. -/
theorem get_attrMap {β : Type} (g : Attr → β) (hg : ∀ a now, g { a with atime := now } = g a)
    (srv : ExtentServer) (now : UInt32) (id eid : Inum) :
    ((srv.get now id).2.attrMap eid).map g = (srv.attrMap eid).map g := by
  unfold get
  split
  · rename_i buf a hbuf ha
    simp only [Function.update_apply]
    split
    · rename_i heq
      rw [heq, ha, Option.map_some, Option.map_some, hg]
    · rfl
  · rfl

theorem get_size (srv : ExtentServer) (now : UInt32) (id eid : Inum) :
    ((srv.get now id).2.attrMap eid).map (·.size) = (srv.attrMap eid).map (·.size) :=
  get_attrMap (·.size) (fun _ _ => rfl) srv now id eid

/-- The server answers a `get` from the content, since an extent with content has attributes. -/
theorem get_answer (srv : ExtentServer) (now : UInt32) (id : Inum) (h : Synced srv id) :
    (srv.get now id).1 = Store.get (srv.contentMap id) := by
  unfold get Store.get
  unfold Synced at h
  cases hbuf : srv.contentMap id with
  | none => rfl
  | some buf =>
      cases ha : srv.attrMap id with
      | none =>
          rw [hbuf, ha] at h
          exact absurd h (by simp only [Option.map_none, Option.map_some, reduceCtorEq,
            not_false_eq_true])
      | some a => rfl

/-- And a `getattr` with the size of the content. -/
theorem getattr_answer (srv : ExtentServer) (id : Inum) (h : Synced srv id) :
    SameAnswer .getattr (srv.getattr id) (Store.getattr (srv.contentMap id)) := by
  unfold getattr Store.getattr
  unfold Synced at h
  cases hbuf : srv.contentMap id with
  | none =>
      rw [hbuf, Option.map_none, Option.map_eq_none_iff] at h
      rw [h]
      exact ⟨rfl, rfl⟩
  | some buf =>
      rw [hbuf, Option.map_some, Option.map_eq_some_iff] at h
      rcases h with ⟨a, ha, hsize⟩
      rw [ha]
      exact ⟨rfl, hsize⟩

/-- A `put` writes both maps, and the size is that of the new content. -/
theorem synced_put (srv : ExtentServer) (now : UInt32) (id eid : Inum) (buf : Bytes)
    (h : Synced srv eid) : Synced (srv.put now id buf) eid := by
  unfold Synced put
  simp only [Function.update_apply]
  split
  · split <;> rfl
  · exact h

end ExtentServer

/-! ## A client in front of a server -/

/-- The client `c` in front of `srv` stands for the value `v` of the extent `eid`: the value is the
    cached content or else the server's, cached attributes have its size, a clean cached content is
    the server's, and a dirty extent has both content and attributes cached. -/
structure Sees (c : ExtentClient) (srv : ExtentServer) (eid : Inum) (v : Option Bytes) :
    Prop where
  synced : Synced srv eid
  content : (c.contentMapCache eid).or (srv.contentMap eid) = v
  attr : ∀ a, c.attrMapCache eid = some a → some a.size = v.map sizeAttr
  clean : c.dirtyEidSet eid = false → ∀ buf, c.contentMapCache eid = some buf →
    srv.contentMap eid = some buf
  dirty : c.dirtyEidSet eid = true →
    (c.contentMapCache eid).isSome = true ∧ (c.attrMapCache eid).isSome = true

/-- The two clients cache the same of an extent. -/
structure SameAt (c c' : ExtentClient) (eid : Inum) : Prop where
  content : c'.contentMapCache eid = c.contentMapCache eid
  attr : c'.attrMapCache eid = c.attrMapCache eid
  dirty : c'.dirtyEidSet eid = c.dirtyEidSet eid

theorem sameAt_refl (c : ExtentClient) (eid : Inum) : SameAt c c eid :=
  ⟨rfl, rfl, rfl⟩

/-- Nothing of the extent is cached. -/
structure Uncached (c : ExtentClient) (eid : Inum) : Prop where
  content : c.contentMapCache eid = none
  attr : c.attrMapCache eid = none
  dirty : c.dirtyEidSet eid = false

theorem Uncached.congr {c c' : ExtentClient} {eid : Inum} (h : Uncached c eid)
    (hc : SameAt c c' eid) : Uncached c' eid :=
  ⟨hc.content.trans h.content, hc.attr.trans h.attr, hc.dirty.trans h.dirty⟩

namespace Sees

variable {c : ExtentClient} {srv srv' : ExtentServer} {eid : Inum} {v : Option Bytes}

/-- Only contents and sizes on the server matter. -/
theorem server_congr (h : Sees c srv eid v) (hcontent : srv'.contentMap eid = srv.contentMap eid)
    (hsize : (srv'.attrMap eid).map (·.size) = (srv.attrMap eid).map (·.size)) :
    Sees c srv' eid v := by
  refine ⟨?_, ?_, h.attr, ?_, h.dirty⟩
  · rw [Synced, hsize, hcontent]
    exact h.synced
  · rw [hcontent]
    exact h.content
  · intro hd buf hbuf
    rw [hcontent]
    exact h.clean hd buf hbuf

/-- Only what is cached of the extent itself matters. -/
theorem client_congr {c' : ExtentClient} (h : Sees c srv eid v) (hc : SameAt c c' eid) :
    Sees c' srv eid v := by
  refine ⟨h.synced, ?_, ?_, ?_, ?_⟩
  · rw [hc.content]
    exact h.content
  · rw [hc.attr]
    exact h.attr
  · rw [hc.dirty, hc.content]
    exact h.clean
  · rw [hc.dirty, hc.content, hc.attr]
    exact h.dirty

/-- A client that caches nothing of an extent sees the server's content. -/
theorem of_uncached (hsynced : Synced srv eid) (hc : Uncached c eid) :
    Sees c srv eid (srv.contentMap eid) := by
  refine ⟨hsynced, ?_, ?_, ?_, ?_⟩
  · rw [hc.content, Option.none_or]
  · intro a ha
    rw [hc.attr] at ha
    exact absurd ha (by simp only [reduceCtorEq, not_false_eq_true])
  · intro _ buf hbuf
    rw [hc.content] at hbuf
    exact absurd hbuf (by simp only [reduceCtorEq, not_false_eq_true])
  · intro hd
    rw [hc.dirty] at hd
    exact absurd hd (by simp only [Bool.false_eq_true, not_false_eq_true])

end Sees

namespace ExtentClient

/-- The cache after an answer about an extent that was not cached. -/
def filled (c : ExtentClient) (eid : Inum) (v : Option Bytes) : ExtentClient :=
  match v with
  | some buf => { c with contentMapCache := Function.update c.contentMapCache eid (some buf) }
  | none => c

theorem get_uncached (c : ExtentClient) (eid : Inum) (v : Option Bytes)
    (h : c.contentMapCache eid = none) :
    c.get eid (Store.get v) = (Store.get v, c.filled eid v) := by
  cases v <;> simp only [get, h, Store.get, filled]

theorem fetch_cached (c : ExtentClient) (srv : ExtentServer) (now : UInt32) (eid : Inum)
    (buf : Bytes) (h : c.contentMapCache eid = some buf) :
    c.fetch srv now eid = ((.ok, buf), c, srv) := by
  simp only [fetch, get, h]

theorem fetch_uncached (c : ExtentClient) (srv : ExtentServer) (now : UInt32) (eid : Inum)
    (h : c.contentMapCache eid = none) (hs : Synced srv eid) :
    c.fetch srv now eid = (Store.get (srv.contentMap eid), c.filled eid (srv.contentMap eid),
      (srv.get now eid).2) := by
  simp only [fetch, h, srv.get_answer now eid hs, c.get_uncached eid _ h]

/-- The cache after the attributes of an extent that had none cached. -/
def filledAttr (c : ExtentClient) (eid : Inum) (rpc : Status × Attr) : ExtentClient :=
  if rpc.1 = .ok
  then { c with attrMapCache := Function.update c.attrMapCache eid (some rpc.2) }
  else c

theorem getattr_uncached (c : ExtentClient) (eid : Inum) (rpc : Status × Attr)
    (h : c.attrMapCache eid = none) : c.getattr eid rpc = (rpc, c.filledAttr eid rpc) := by
  rcases rpc with ⟨st, a⟩
  cases st <;> simp only [getattr, h, filledAttr, if_true, reduceCtorEq, if_false]

theorem getattr_cached (c : ExtentClient) (eid : Inum) (rpc : Status × Attr) (a : Attr)
    (h : c.attrMapCache eid = some a) : c.getattr eid rpc = ((.ok, a), c) := by
  simp only [getattr, h]

end ExtentClient

section Operations

variable {c : ExtentClient} {srv : ExtentServer} {eid e : Inum} {v : Option Bytes}

/-- Filling the cache from the server changes nothing that is seen. It happens where no content was
    cached, and such an extent is not dirty. -/
theorem sees_filled (h : Sees c srv eid v) (hc : c.contentMapCache eid = none) :
    Sees (c.filled eid (srv.contentMap eid)) srv eid v := by
  unfold ExtentClient.filled
  split
  · rename_i buf hbuf
    have hv : v = some buf := by rw [← h.content, hc, Option.none_or, hbuf]
    refine ⟨h.synced, ?_, h.attr, ?_, ?_⟩
    · simp only [Function.update_self, Option.some_or, hv]
    · intro _ buf' hbuf'
      simpa only [Function.update_self, hbuf] using hbuf'
    · intro hd
      -- A dirty extent is cached.
      exact absurd (h.dirty hd).1 (by simp only [hc, Option.isSome_none, Bool.false_eq_true,
        not_false_eq_true])
  · exact h

/-- A `get` keeps the value, whether it is answered from the cache or by the server. -/
theorem sees_fetch (now : UInt32) (h : Sees c srv eid v) :
    Sees (c.fetch srv now eid).2.1 (c.fetch srv now eid).2.2 eid v := by
  cases hc : c.contentMapCache eid with
  | some buf =>
      rw [c.fetch_cached srv now eid buf hc]
      exact h
  | none =>
      rw [c.fetch_uncached srv now eid hc h.synced]
      exact (sees_filled h hc).server_congr (congrFun (srv.get_contentMap now eid) eid)
        (srv.get_size now eid eid)

/-- And it is answered with the value. -/
theorem fetch_answer (now : UInt32) (h : Sees c srv eid v) :
    (c.fetch srv now eid).1 = Store.get v := by
  cases hc : c.contentMapCache eid with
  | some buf =>
      rw [c.fetch_cached srv now eid buf hc, ← h.content, hc]
      rfl
  | none =>
      rw [c.fetch_uncached srv now eid hc h.synced, ← h.content, hc, Option.none_or]

/-- An extent without cached attributes is not dirty, so the server has its value. -/
theorem content_of_attr_none (h : Sees c srv eid v) (ha : c.attrMapCache eid = none) :
    srv.contentMap eid = v := by
  rw [← h.content]
  cases hc : c.contentMapCache eid with
  | none => rw [Option.none_or]
  | some buf =>
      cases hd : c.dirtyEidSet eid with
      | false => rw [h.clean hd buf hc, Option.some_or]
      | true =>
          exact absurd (h.dirty hd).2 (by simp only [ha, Option.isSome_none, Bool.false_eq_true,
            not_false_eq_true])

/-- A `getattr` is answered with the size of the value. Cached attributes have that size; without
    them the extent is not dirty, and the server has the value. -/
theorem fetchattr_answer (h : Sees c srv eid v) :
    SameAnswer .getattr (c.fetchattr srv eid).1 (Store.getattr v) := by
  unfold ExtentClient.fetchattr
  cases ha : c.attrMapCache eid with
  | some a =>
      rw [c.getattr_cached eid _ a ha]
      have hsize := h.attr a ha
      cases v with
      | none => exact absurd hsize (by simp only [Option.map_none, reduceCtorEq,
          not_false_eq_true])
      | some buf => exact ⟨rfl, Option.some.inj hsize⟩
  | none =>
      -- The server is asked, and has the value.
      rw [c.getattr_uncached eid _ ha, ← content_of_attr_none h ha]
      exact srv.getattr_answer eid h.synced

/-- A `getattr` keeps the value. -/
theorem sees_fetchattr (h : Sees c srv eid v) : Sees (c.fetchattr srv eid).2 srv eid v := by
  unfold ExtentClient.fetchattr
  cases ha : c.attrMapCache eid with
  | some a =>
      rw [c.getattr_cached eid _ a ha]
      exact h
  | none =>
      rw [c.getattr_uncached eid _ ha]
      simp only [ExtentClient.filledAttr]
      split
      · rename_i hok
        refine ⟨h.synced, h.content, ?_, h.clean, ?_⟩
        · -- The size just fetched is that of the server's content.
          intro a hset
          simp only [Function.update_self, Option.some.injEq] at hset
          have hans := srv.getattr_answer eid h.synced
          rw [content_of_attr_none h ha] at hans
          cases v with
          | none =>
              exact absurd (hans.1.symm.trans hok) (by simp only [Store.getattr, reduceCtorEq,
                not_false_eq_true])
          | some buf =>
              rw [← hset, hans.2]
              rfl
        · intro hd
          exact ⟨(h.dirty hd).1, by simp only [Function.update_self, Option.isSome_some]⟩
      · exact h

/-- A `put` makes its argument the value, in the cache alone. -/
theorem sees_put (now : UInt32) (buf : Bytes) (h : Sees c srv eid v) :
    Sees (c.put now eid buf) srv eid (some buf) := by
  refine ⟨h.synced, ?_, ?_, ?_, ?_⟩
  · simp only [ExtentClient.put, Function.update_self, Option.some_or]
  · intro a ha
    simp only [ExtentClient.put, Function.update_self, Option.some.injEq] at ha
    rw [← ha]
    rfl
  -- The extent is dirty now, so nothing is asked of the server.
  · intro hd
    simp only [ExtentClient.put, Function.update_self, Bool.true_eq_false] at hd
  · intro _
    simp only [ExtentClient.put, Function.update_self, Option.isSome_some, and_self]

/-- What `flush` leaves at the server: the value the client stood for. -/
theorem writeBack_contentMap (now : UInt32) (h : Sees c srv eid v) :
    (c.writeBack srv now eid).2.contentMap = Function.update srv.contentMap eid v := by
  unfold ExtentClient.writeBack ExtentClient.flushRequest
  have hv := h.content
  cases hd : c.dirtyEidSet eid with
  | true =>
      -- A dirty extent is cached, and the cached content is sent.
      rcases Option.isSome_iff_exists.mp (h.dirty hd).1 with ⟨buf, hbuf⟩
      rw [hbuf, Option.some_or] at hv
      simp only [if_true, hbuf, Option.getD_some, ExtentServer.put, ← hv]
  | false =>
      -- Nothing is sent, and nothing has to be.
      have hsrv : srv.contentMap eid = v := by
        cases hc : c.contentMapCache eid with
        | none => rwa [hc, Option.none_or] at hv
        | some buf =>
            rw [hc, Option.some_or] at hv
            rw [h.clean hd buf hc, hv]
      simp only [Bool.false_eq_true, if_false, ← hsrv, Function.update_eq_self]

/-- A write-back keeps the two maps of the server in step. -/
theorem synced_writeBack (now : UInt32) (eid : Inum) (h : Synced srv e) :
    Synced (c.writeBack srv now eid).2 e := by
  unfold ExtentClient.writeBack
  cases c.flushRequest eid with
  | none => exact h
  | some buf => exact srv.synced_put now eid e buf h

end Operations

/-- A write-back leaves the cache of other extents alone. -/
theorem sameAt_writeBack (c : ExtentClient) (srv : ExtentServer) (now : UInt32)
    {eid e : Inum} (he : e ≠ eid) : SameAt c (c.writeBack srv now eid).1 e := by
  unfold ExtentClient.writeBack ExtentClient.flush ExtentClient.remove
  split
  · exact ⟨Function.update_of_ne he _ _, Function.update_of_ne he _ _,
      Function.update_of_ne he _ _⟩
  · exact ⟨Function.update_of_ne he _ _, Function.update_of_ne he _ _, rfl⟩

theorem writeBack_size (c : ExtentClient) (srv : ExtentServer) (now : UInt32)
    {eid e : Inum} (he : e ≠ eid) : (c.writeBack srv now eid).2.attrMap e = srv.attrMap e := by
  unfold ExtentClient.writeBack
  cases c.flushRequest eid with
  | none => rfl
  | some buf => exact Function.update_of_ne he _ _

/-- After a write-back nothing of the extent is cached. -/
theorem uncached_writeBack (c : ExtentClient) (srv : ExtentServer) (now : UInt32)
    (eid : Inum) : Uncached (c.writeBack srv now eid).1 eid := by
  unfold ExtentClient.writeBack ExtentClient.flush ExtentClient.remove
  split
  · exact ⟨Function.update_self _ _ _, Function.update_self _ _ _, Function.update_self _ _ _⟩
  · rename_i hd
    exact ⟨Function.update_self _ _ _, Function.update_self _ _ _, Bool.eq_false_iff.mpr hd⟩

/-! ## States that stand for a store -/

/-- The server holds the contents of `f`. -/
def Direct.Holds (d : Direct) (f : Store) : Prop :=
  ∀ eid, Synced d.server eid ∧ d.server.contentMap eid = f eid

/-- The client in front of the server stands for `f`. -/
def Cached.Holds (s : Cached) (f : Store) : Prop :=
  ∀ eid, Sees s.client s.server eid (f eid)

/-- The content of an extent that operations work on. -/
def Cached.content (s : Cached) (eid : Inum) : Option Bytes :=
  (s.client.contentMapCache eid).or (s.server.contentMap eid)

theorem Cached.Holds.content {s : Cached} {f : Store} (h : s.Holds f) (eid : Inum) :
    s.content eid = f eid :=
  (h eid).content

/-- A new client in front of a new server: the root directory, empty. -/
theorem Cached.holds_new (now : UInt32) (ticks : Nat) :
    Holds ⟨.new, .new now, ticks⟩ (ExtentServer.new now).contentMap :=
  fun eid => Sees.of_uncached (ExtentServer.synced_new now eid) ⟨rfl, rfl, rfl⟩

/-- A server used directly implements the store: every call is answered as the store answers it,
    apart from times, and the server stands for the store afterwards. -/
theorem direct_answers (clock : Nat → UInt32) :
    Answers SameAnswer Direct.Holds (Direct.serve clock) Store.serve := by
  intro eid o d f h
  cases o with
  | get =>
      -- The access time that a `get` writes shows in no answer.
      refine ⟨?_, fun e => ⟨?_, ?_⟩⟩
      · change (d.server.get (clock d.ticks) eid).1 = Store.get (f eid)
        rw [d.server.get_answer _ eid (h eid).1, (h eid).2]
      · change Synced (d.server.get (clock d.ticks) eid).2 e
        rw [Synced, d.server.get_size, d.server.get_contentMap]
        exact (h e).1
      · change (d.server.get (clock d.ticks) eid).2.contentMap e = f e
        rw [d.server.get_contentMap]
        exact (h e).2
  | getattr =>
      refine ⟨?_, h⟩
      have hans := d.server.getattr_answer eid (h eid).1
      rw [(h eid).2] at hans
      exact hans
  | put buf =>
      refine ⟨rfl, fun e => ⟨d.server.synced_put _ eid e buf (h e).1, ?_⟩⟩
      simp only [Direct.serve, Store.serve, ExtentServer.put, Function.update_apply, (h e).2]

/-- A call does not change what is cached of other extents. -/
theorem Cached.sameAt_serve (clock : Nat → UInt32) {eid e : Inum} (he : e ≠ eid)
    (o : ExtentCall) (s : Cached) : SameAt s.client (serve clock eid o s).2.client e := by
  cases o with
  | get =>
      cases hc : s.client.contentMapCache eid with
      | some buf =>
          simp only [serve, s.client.fetch_cached s.server _ eid buf hc]
          exact sameAt_refl _ _
      | none =>
          simp only [serve, ExtentClient.fetch, ExtentClient.get, hc]
          split
          · exact ⟨Function.update_of_ne he _ _, rfl, rfl⟩
          · exact sameAt_refl _ _
  | getattr =>
      cases ha : s.client.attrMapCache eid with
      | some a =>
          simp only [serve, ExtentClient.fetchattr, s.client.getattr_cached eid _ a ha]
          exact sameAt_refl _ _
      | none =>
          simp only [serve, ExtentClient.fetchattr, s.client.getattr_uncached eid _ ha,
            ExtentClient.filledAttr]
          split
          · exact ⟨rfl, Function.update_of_ne he _ _, rfl⟩
          · exact sameAt_refl _ _
  | put buf =>
      exact ⟨Function.update_of_ne he _ _, Function.update_of_ne he _ _,
        Function.update_of_ne he _ _⟩

/-- Nor, apart from access times, what the server has. -/
theorem Cached.serve_server (clock : Nat → UInt32) (eid : Inum) (o : ExtentCall) (s : Cached) :
    (serve clock eid o s).2.server.contentMap = s.server.contentMap ∧
      ∀ e, ((serve clock eid o s).2.server.attrMap e).map (·.size)
        = (s.server.attrMap e).map (·.size) := by
  cases o with
  | get =>
      cases hc : s.client.contentMapCache eid with
      | some buf =>
          simp only [serve, s.client.fetch_cached s.server _ eid buf hc]
          exact ⟨trivial, fun _ => trivial⟩
      | none =>
          simp only [serve, ExtentClient.fetch, hc]
          exact ⟨s.server.get_contentMap _ eid, s.server.get_size _ eid⟩
  | getattr => exact ⟨rfl, fun _ => rfl⟩
  | put buf => exact ⟨rfl, fun _ => rfl⟩

/-- A call on an extent is answered from its value, and afterwards the client stands for the value
    that the call leaves. -/
theorem Cached.serve_sees (clock : Nat → UInt32) {eid : Inum} (o : ExtentCall) {s : Cached}
    {v : Option Bytes} (h : Sees s.client s.server eid v) :
    SameAnswer o (serve clock eid o s).1 (Store.act o v).1 ∧
      Sees (serve clock eid o s).2.client (serve clock eid o s).2.server eid
        (Store.act o v).2 := by
  cases o with
  | get => exact ⟨fetch_answer _ h, sees_fetch _ h⟩
  | getattr => exact ⟨fetchattr_answer h, sees_fetchattr h⟩
  | put buf => exact ⟨rfl, sees_put _ buf h⟩

/-- A call on one extent does not change the value of another. -/
theorem Cached.serve_sees_other (clock : Nat → UInt32) {eid e : Inum} (he : e ≠ eid)
    (o : ExtentCall) {s : Cached} {v : Option Bytes} (h : Sees s.client s.server e v) :
    Sees (serve clock eid o s).2.client (serve clock eid o s).2.server e v := by
  have hserver := serve_server clock eid o s
  exact (h.client_congr (sameAt_serve clock he o s)).server_congr (congrFun hserver.1 e)
    (hserver.2 e)

/-- A call on the store is a call on one extent of it. -/
theorem Store.serve_eq (eid : Inum) (o : ExtentCall) (f : Store) :
    Store.serve eid o f = ((act o (f eid)).1, Function.update f eid (act o (f eid)).2) := by
  cases o with
  | get => simp only [serve, act, Function.update_eq_self]
  | getattr => simp only [serve, act, Function.update_eq_self]
  | put buf => rfl

/-- A client in front of a server implements the store, as the server by itself does. What the cache
    has and the server has not is part of the relation, so no write-back is needed for it. -/
theorem cached_answers (clock : Nat → UInt32) :
    Answers SameAnswer Cached.Holds (Cached.serve clock) Store.serve := by
  intro eid o s f h
  have hself := Cached.serve_sees clock o (h eid)
  rw [Store.serve_eq]
  refine ⟨hself.1, fun e => ?_⟩
  by_cases he : e = eid
  · subst he
    simp only [Function.update_self]
    exact hself.2
  · simp only [Function.update_of_ne he]
    exact Cached.serve_sees_other clock he o (h e)

/-! ## Reachable states -/

theorem ExtentClient.uncached_of_isClear {c : ExtentClient} {eid : Inum}
    (h : c.isClear eid = true) : Uncached c eid := by
  unfold ExtentClient.isClear at h
  rw [Bool.and_eq_true, Bool.and_eq_true, Bool.not_eq_true'] at h
  exact ⟨Option.isNone_iff_eq_none.mp h.1.1, Option.isNone_iff_eq_none.mp h.1.2, h.2⟩

namespace Cached

variable {clock : Nat → UInt32} {s s' : Cached} {f : Store}

/-- A state that differs in one extent from one that stands for a store. -/
theorem holds_of_sees {eid : Inum} {v : Option Bytes} (h : s.Holds f)
    (hself : Sees s'.client s'.server eid v) (hsynced : ∀ e, Synced s'.server e)
    (hclient : ∀ e, e ≠ eid → SameAt s.client s'.client e)
    (hcontent : ∀ e, e ≠ eid → s'.server.contentMap e = s.server.contentMap e) :
    s'.Holds (Function.update f eid v) := by
  intro e
  by_cases he : e = eid
  · subst he
    rw [Function.update_self]
    exact hself
  · rw [Function.update_of_ne he]
    -- Equal contents have equal sizes on a server whose maps agree.
    have hsize := hsynced e
    rw [Synced, hcontent e he, ← (h e).synced] at hsize
    exact ((h e).client_congr (hclient e he)).server_congr (hcontent e he) hsize

/-- After a write-back the state stands for a store: the extent is seen through an empty cache, and
    the others as before. -/
theorem holds_flush {eid : Inum} (h : s.Holds f) (hs : s.step clock (.flush eid) = some s') :
    ∃ f', s'.Holds f' := by
  simp only [step, Option.some.injEq] at hs
  subst hs
  have hsynced := fun e => synced_writeBack (c := s.client) (clock s.ticks) eid (h e).synced
  have hself := Sees.of_uncached (hsynced eid)
    (uncached_writeBack s.client s.server (clock s.ticks) eid)
  refine ⟨_, holds_of_sees h hself hsynced ?_ ?_⟩
  · exact fun e he => sameAt_writeBack s.client s.server (clock s.ticks) he
  · intro e he
    change (s.client.writeBack s.server (clock s.ticks) eid).2.contentMap e = _
    rw [writeBack_contentMap _ (h eid), Function.update_of_ne he]

/-- Another client's call reaches the server while this client has nothing of the extent cached. -/
theorem holds_other {eid : Inum} {o : ExtentCall} (h : s.Holds f)
    (hs : s.step clock (.other eid o) = some s') : ∃ f', s'.Holds f' := by
  by_cases hclear : s.client.isClear eid = true
  · simp only [step, if_pos hclear, Option.some.injEq] at hs
    subst hs
    -- The server is one that is used directly, and stands for its own contents.
    have hdirect := (direct_answers clock eid o ⟨s.server, s.ticks⟩ s.server.contentMap
      fun e => ⟨(h e).synced, rfl⟩).2
    rw [Store.serve_eq] at hdirect
    have hself := Sees.of_uncached (hdirect eid).1 (ExtentClient.uncached_of_isClear hclear)
    refine ⟨_, holds_of_sees h hself (fun e => (hdirect e).1) ?_ ?_⟩
    · exact fun e _ => sameAt_refl s.client e
    · intro e he
      exact (hdirect e).2.trans (Function.update_of_ne he _ _)
  · simp only [step, if_neg hclear, reduceCtorEq] at hs

/-- One step leads from a state that stands for a store to one that does. -/
theorem holds_step {a : Action} (h : s.Holds f) (hs : s.step clock a = some s') :
    ∃ f', s'.Holds f' := by
  cases a with
  | call eid o =>
      simp only [step, Option.some.injEq] at hs
      subst hs
      exact ⟨_, (cached_answers clock eid o s f h).2⟩
  | flush eid => exact holds_flush h hs
  | other eid o => exact holds_other h hs

/-- A reachable state stands for the contents it shows, after any calls, write-backs and calls of
    other clients. -/
theorem reachable_holds {now : UInt32} {ticks : Nat}
    (hr : Trace.Reaches (step clock) Trace.Always ⟨.new, .new now, ticks⟩ s) :
    s.Holds s.content := by
  have hholds : ∃ f, s.Holds f := by
    refine Trace.invariant_of_step (fun s => ∃ f, s.Holds f) ⟨_, holds_new now ticks⟩ ?_ hr
    rintro s a s' ⟨f, h⟩ _ hs
    exact holds_step h hs
  rcases hholds with ⟨f, h⟩
  have heq : f = s.content := funext fun e => (h.content e).symm
  rwa [← heq]

end Cached

end Yfs
