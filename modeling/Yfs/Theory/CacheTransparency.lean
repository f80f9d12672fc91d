import Yfs.Core.ExtentSession

/-!
# The Extent Cache Seen from Outside

Whether a client with a write-back cache answers like the server without one.

A call works on one extent, so both sides are reduced to what they keep of one extent.
`Cell` is that for a server: the content and the size attribute, either of which may be
missing. `CachedCell` is that for a client and the server behind it. Each side's call is a
function on its cell and leaves the cells of other extents alone (`perform_cell` of both),
and the times are gone.

`Shadows` relates the two cells of an extent. As long as the extent has not been removed,
a dirty cached cell is the server's cell in the session without a cache, and a clean one
agrees with the server behind it. After a removal the two sides differ: the cache has
dropped its values and told nobody, so the server behind it may still have the extent, or
get it back as an empty one from a flush of the dirty mark that `remove` leaves. The next
`put` repairs this.

So a session is answered alike exactly if nobody looks in between. `Unseen` says that for
one call, on the cells before it, and `answers_eq_iff` for a whole session.

## Main definitions

* `Cell`, `Cell.act`: One extent on a server.
* `CachedCell`, `CachedCell.act`: One extent behind a cache.
* `Shadows`, `Dropped`, `Related`: The two stand for the same extent.
* `Unseen`: A call does not meet a removal that the server has not heard of.
* `AllUnseen`: The same of all calls of a session.

## Theorems

* `act_answer_iff`: Answers to a call are equal exactly if it is unseen.
* `act_related`: And then the cells still stand for the same extent.
* `answers_eq_iff`: Exactly which sessions are answered alike.
* `removed_extent_answers`: One that is not.
-/

namespace Yfs

open Extent

/-- What a server has of one extent. -/
structure Cell where
  content : Option Bytes
  size : Option UInt32
  deriving DecidableEq

/-- What a client has of one extent, and the server behind it. -/
structure CachedCell where
  content : Option Bytes
  size : Option UInt32
  dirty : Bool
  server : Cell
  deriving DecidableEq

/-- The cell of a content. -/
def Cell.of (buf : Bytes) : Cell where
  content := some buf
  size := some (sizeAttr buf)

def Cell.get (d : Cell) : Status × Bytes :=
  match d.content, d.size with
  | some buf, some _ => (.ok, buf)
  | _, _ => (.ioerr, [])

def Cell.getattr (d : Cell) : Status × Option UInt32 :=
  match d.size with
  | some n => (.ok, some n)
  | none => (.ioerr, none)

/-- A call on one extent of a server, by what the server has of it. -/
def Cell.act (d : Cell) : ClientCall → SessionAnswer × Cell
  | .get => (.content d.get.1 d.get.2, d)
  | .getattr => (.size d.getattr.1 d.getattr.2, d)
  | .put buf => (.status .ok, Cell.of buf)
  -- What can be read can be removed.
  | .remove => (.status d.get.1, if d.get.1 = .ok then ⟨none, none⟩ else d)
  | .flush => (.status .ok, d)

/-- What is asked of the server is kept if the server has it. -/
def CachedCell.act (k : CachedCell) : ClientCall → SessionAnswer × CachedCell
  | .get => match k.content with
    | some buf => (.content .ok buf, k)
    | none => (.content k.server.get.1 k.server.get.2,
        if k.server.get.1 = .ok then { k with content := some k.server.get.2 } else k)
  | .getattr => match k.size with
    | some n => (.size .ok (some n), k)
    | none => (.size k.server.getattr.1 k.server.getattr.2, { k with size := k.server.getattr.2 })
  | .put buf => (.status .ok, ⟨some buf, some (sizeAttr buf), true, k.server⟩)
  | .remove => (.status .ok, { k with content := none, size := none })
  | .flush => (.status .ok, ⟨none, none, false,
      if k.dirty then Cell.of (k.content.getD []) else k.server⟩)

/-! ## Sessions by their cells -/

def ExtentServer.cell (srv : ExtentServer) (eid : Inum) : Cell where
  content := srv.contentMap eid
  size := (srv.attrMap eid).map (·.size)

def ExtentClient.cell (c : ExtentClient) (srv : ExtentServer) (eid : Inum) : CachedCell where
  content := c.contentMapCache eid
  size := (c.attrMapCache eid).map (·.size)
  dirty := c.dirtyEidSet eid
  server := srv.cell eid

namespace ExtentServer

/-- The calls on the server depend on the one cell. -/
theorem get_cell (srv : ExtentServer) (now : UInt32) (id : Inum) :
    (srv.get now id).1 = (srv.cell id).get := by
  simp only [get, Cell.get, cell]
  cases srv.contentMap id with
  | none => rfl
  | some buf => cases srv.attrMap id <;> rfl

theorem getattr_cell (srv : ExtentServer) (id : Inum) :
    SessionAnswer.ofAttr (srv.getattr id)
      = .size (srv.cell id).getattr.1 (srv.cell id).getattr.2 := by
  simp only [getattr, Cell.getattr, cell]
  cases srv.attrMap id <;> rfl

/-- They change the one cell. -/
theorem cell_put (srv : ExtentServer) (now : UInt32) (id e : Inum) (buf : Bytes) :
    (srv.put now id buf).cell e = if e = id then Cell.of buf else srv.cell e := by
  simp only [cell, put, Function.update_apply]
  split
  · split <;> rfl
  · rfl

theorem cell_get (srv : ExtentServer) (now : UInt32) (id e : Inum) :
    (srv.get now id).2.cell e = srv.cell e := by
  unfold get
  split
  · rename_i buf a hbuf ha
    simp only [cell, Function.update_apply, Cell.mk.injEq, true_and]
    split
    · rename_i heq
      rw [heq, ha]
      rfl
    · rfl
  · rfl

/-- An extent is removed if it can be read. -/
theorem remove_cell (srv : ExtentServer) (id e : Inum) :
    (srv.remove id).1 = (srv.cell id).get.1 ∧
      (srv.remove id).2.cell e
        = if e = id ∧ (srv.cell id).get.1 = .ok then ⟨none, none⟩ else srv.cell e := by
  cases hbuf : srv.contentMap id with
  | none =>
      have hget : (srv.cell id).get = (.ioerr, []) := by simp only [Cell.get, cell, hbuf]
      simp only [remove, hbuf, hget, reduceCtorEq, and_false, if_false, and_self]
  | some buf =>
      cases ha : srv.attrMap id with
      | none =>
          have hget : (srv.cell id).get = (.ioerr, []) := by
            simp only [Cell.get, cell, hbuf, ha, Option.map_none]
          simp only [remove, hbuf, ha, hget, reduceCtorEq, and_false, if_false, and_self]
      | some a =>
          have hget : (srv.cell id).get = (.ok, buf) := by
            simp only [Cell.get, cell, hbuf, ha, Option.map_some]
          rw [hget]
          refine ⟨by simp only [remove, hbuf, ha], ?_⟩
          simp only [remove, hbuf, ha, cell, Function.update_apply, and_true]
          split <;> rfl

/-- A call on the server is the call on the extent's cell. -/
theorem perform_cell (srv : ExtentServer) (now : UInt32) (eid : Inum) (call : ClientCall) :
    (srv.perform now eid call).1 = ((srv.cell eid).act call).1 ∧
      (srv.perform now eid call).2.cell
        = Function.update srv.cell eid ((srv.cell eid).act call).2 := by
  cases call with
  | get =>
      refine ⟨?_, ?_⟩
      · simp only [perform, srv.get_cell now eid, Cell.act]
      · simp only [Cell.act, Function.update_eq_self]
        exact funext (srv.cell_get now eid)
  | getattr =>
      refine ⟨srv.getattr_cell eid, ?_⟩
      simp only [perform, Cell.act, Function.update_eq_self]
  | put buf =>
      refine ⟨rfl, funext fun e => ?_⟩
      rw [Function.update_apply]
      exact srv.cell_put now eid e buf
  | remove =>
      refine ⟨congrArg SessionAnswer.status (srv.remove_cell eid eid).1, funext fun e => ?_⟩
      rw [Function.update_apply]
      refine (srv.remove_cell eid e).2.trans ?_
      simp only [Cell.act]
      by_cases he : e = eid
      · simp only [he, true_and, if_true]
      · simp only [he, false_and, if_false]
  | flush => exact ⟨rfl, (Function.update_eq_self eid srv.cell).symm⟩

end ExtentServer

namespace ExtentClient

/-- A `get` asks the server if the content is not cached. -/
theorem perform_get_cell (c : ExtentClient) (srv : ExtentServer) (now : UInt32) (eid : Inum) :
    (c.perform srv now eid .get).1 = ((c.cell srv eid).act .get).1 ∧
      (c.perform srv now eid .get).2.1.cell (c.perform srv now eid .get).2.2
        = Function.update (c.cell srv) eid ((c.cell srv eid).act .get).2 := by
  cases hc : c.contentMapCache eid with
  | some buf =>
      have hact : (c.cell srv eid).act .get = (.content .ok buf, c.cell srv eid) := by
        simp only [CachedCell.act, cell, hc]
      rw [hact, Function.update_eq_self]
      simp only [perform, fetch, get, hc]
      exact ⟨trivial, trivial⟩
  | none =>
      have hact : (c.cell srv eid).act .get = (.content (srv.cell eid).get.1 (srv.cell eid).get.2,
          if (srv.cell eid).get.1 = .ok
          then { c.cell srv eid with content := some (srv.cell eid).get.2 }
          else c.cell srv eid) := by
        simp only [CachedCell.act, cell, hc]
      have hsrv : (srv.get now eid).2.cell = srv.cell := funext (srv.cell_get now eid)
      have hrpc := srv.get_cell now eid
      rcases hget : srv.get now eid with ⟨⟨st, buf⟩, srv'⟩
      rw [hget] at hrpc hsrv
      rw [hact, ← hrpc]
      simp only [perform, fetch, hc, hget]
      cases st with
      | ok =>
          simp only [get, hc, if_true]
          refine ⟨trivial, funext fun e => ?_⟩
          simp only [Function.update_apply, cell, hsrv]
          split
          · rename_i heq
            rw [heq]
          · rfl
      | _ =>
          simp only [get, hc, reduceCtorEq, if_false, Function.update_eq_self]
          exact ⟨trivial, funext fun e => by simp only [cell, hsrv]⟩

/-- A `getattr` asks the server if the attributes are not cached. -/
theorem perform_getattr_cell (c : ExtentClient) (srv : ExtentServer) (now : UInt32)
    (eid : Inum) :
    (c.perform srv now eid .getattr).1 = ((c.cell srv eid).act .getattr).1 ∧
      (c.perform srv now eid .getattr).2.1.cell (c.perform srv now eid .getattr).2.2
        = Function.update (c.cell srv) eid ((c.cell srv eid).act .getattr).2 := by
  cases hc : c.attrMapCache eid with
  | some a =>
      have hact : (c.cell srv eid).act .getattr = (.size .ok (some a.size), c.cell srv eid) := by
        simp only [CachedCell.act, cell, hc, Option.map_some]
      rw [hact, Function.update_eq_self]
      simp only [perform, fetchattr, getattr, hc, SessionAnswer.ofAttr]
      exact ⟨trivial, trivial⟩
  | none =>
      have hact : (c.cell srv eid).act .getattr
          = (.size (srv.cell eid).getattr.1 (srv.cell eid).getattr.2,
            { c.cell srv eid with size := (srv.cell eid).getattr.2 }) := by
        simp only [CachedCell.act, cell, hc, Option.map_none]
      rw [hact]
      cases ha : srv.attrMap eid with
      | none =>
          -- Nothing is cached, and the cell is the one it was.
          have hrpc : srv.getattr eid = (.ioerr, Attr.unset) := by
            simp only [ExtentServer.getattr, ha]
          have hcell : (srv.cell eid).getattr = (.ioerr, none) := by
            simp only [Cell.getattr, ExtentServer.cell, ha, Option.map_none]
          have hsize : (c.cell srv eid).size = none := by simp only [cell, hc, Option.map_none]
          simp only [perform, fetchattr, getattr, hc, hrpc, hcell, SessionAnswer.ofAttr, ← hsize,
            Function.update_eq_self]
          exact ⟨trivial, trivial⟩
      | some a =>
          have hrpc : srv.getattr eid = (.ok, a) := by simp only [ExtentServer.getattr, ha]
          have hcell : (srv.cell eid).getattr = (.ok, some a.size) := by
            simp only [Cell.getattr, ExtentServer.cell, ha, Option.map_some]
          simp only [perform, fetchattr, getattr, hc, hrpc, hcell, SessionAnswer.ofAttr]
          refine ⟨trivial, funext fun e => ?_⟩
          simp only [cell, Function.update_apply]
          split
          · rename_i heq
            rw [heq]
            rfl
          · rfl

/-- A call through the cache is the call on the extent's cached cell, and leaves the other cells as
    they were. -/
theorem perform_cell (c : ExtentClient) (srv : ExtentServer) (now : UInt32) (eid : Inum)
    (call : ClientCall) :
    (c.perform srv now eid call).1 = ((c.cell srv eid).act call).1 ∧
      (c.perform srv now eid call).2.1.cell (c.perform srv now eid call).2.2
        = Function.update (c.cell srv) eid ((c.cell srv eid).act call).2 := by
  cases call with
  | get => exact c.perform_get_cell srv now eid
  | getattr => exact c.perform_getattr_cell srv now eid
  | put buf =>
      refine ⟨rfl, funext fun e => ?_⟩
      simp only [perform, put, cell, CachedCell.act, Function.update_apply]
      split
      · rename_i heq
        rw [heq]
        rfl
      · rfl
  | remove =>
      refine ⟨rfl, funext fun e => ?_⟩
      simp only [perform, remove, cell, CachedCell.act, Function.update_apply]
      split
      · rename_i heq
        rw [heq]
        rfl
      · rfl
  | flush =>
      cases hd : c.dirtyEidSet eid with
      | false =>
          simp only [perform, writeBack, flush, flushRequest, CachedCell.act, hd, cell,
            Bool.false_eq_true, if_false]
          refine ⟨trivial, funext fun e => ?_⟩
          simp only [remove, cell, Function.update_apply]
          split
          · rename_i heq
            rw [heq, hd]
            rfl
          · rfl
      | true =>
          -- The cached content goes to the server, or the empty one if it is gone.
          simp only [perform, writeBack, flush, flushRequest, CachedCell.act, hd, cell, if_true]
          refine ⟨trivial, funext fun e => ?_⟩
          simp only [remove, cell, Function.update_apply, ExtentServer.cell_put]
          split <;> rfl

end ExtentClient

/-! ## One extent with and without a cache -/

/-- The extent has not been removed since it was last put: a dirty cell has both values, and
    a clean one has only what the server behind it has. -/
inductive Shadows : CachedCell → Cell → Prop where
  | dirty (buf : Bytes) (server : Cell) :
      Shadows ⟨some buf, some (sizeAttr buf), true, server⟩ (Cell.of buf)
  | clean (content : Option Bytes) (size : Option UInt32) (server : Cell)
      (hcontent : ∀ buf, content = some buf → server.get = (.ok, buf))
      (hsize : ∀ n, size = some n → server.size = some n) :
      Shadows ⟨content, size, false, server⟩ server

/-- The extent has been removed: it is gone without a cache, and not cached. -/
inductive Dropped : CachedCell → Cell → Prop where
  | mk (dirty : Bool) (server : Cell) : Dropped ⟨none, none, dirty, server⟩ ⟨none, none⟩

/-- The two cells of an extent; `removed` is set from a removal to the next `put`. -/
def Related (removed : Bool) (k : CachedCell) (d : Cell) : Prop :=
  if removed then Dropped k d else Shadows k d

/-- A call on the extent does not meet a removal that the server has not heard of: an
    extent that was removed is not there to be read, and what is removed is there. -/
def Unseen (removed : Bool) (k : CachedCell) : ClientCall → Prop
  | .get => removed = true → k.server.get.1 ≠ .ok
  | .getattr => removed = true → k.server.getattr.1 ≠ .ok
  | .remove => removed = false ∧ (k.dirty = true ∨ k.server.get.1 = .ok)
  | _ => True

/-- Whether the extent counts as removed after a call. -/
def ClientCall.removes (removed : Bool) : ClientCall → Bool
  | .remove => true
  | .put _ => false
  | _ => removed

theorem Cell.get_none : (⟨none, none⟩ : Cell).get = (.ioerr, []) := rfl

theorem Cell.getattr_none : (⟨none, none⟩ : Cell).getattr = (.ioerr, none) := rfl

/-- A `get` fails or succeeds, and so does a `getattr`. -/
theorem Cell.get_cases (d : Cell) : d.get = (.ioerr, []) ∨ ∃ buf, d.get = (.ok, buf) := by
  unfold get
  split
  · exact Or.inr ⟨_, rfl⟩
  · exact Or.inl rfl

theorem Cell.getattr_cases (d : Cell) :
    (d.size = none ∧ d.getattr = (.ioerr, none)) ∨
      ∃ n, d.size = some n ∧ d.getattr = (.ok, some n) := by
  unfold getattr
  cases d.size with
  | none => exact Or.inl ⟨rfl, rfl⟩
  | some n => exact Or.inr ⟨n, rfl, rfl⟩

/-- The answers to a call are equal exactly if it is unseen. The cases are those of the relation
    first: removed, dirty, or clean; and the calls inside. -/
theorem act_answer_iff (removed : Bool) (k : CachedCell) (d : Cell) (h : Related removed k d)
    (call : ClientCall) : (k.act call).1 = (d.act call).1 ↔ Unseen removed k call := by
  cases removed with
  | true =>
      rcases h with ⟨dirty, server⟩
      cases call with
      | get =>
          -- The server behind the cache answers, and without a cache there is nothing.
          rcases server.get_cases with hget | ⟨buf, hget⟩
          · simp [CachedCell.act, Cell.act, Unseen, hget, Cell.get_none]
          · simp [CachedCell.act, Cell.act, Unseen, hget, Cell.get_none]
      | getattr =>
          rcases server.getattr_cases with ⟨_, hattr⟩ | ⟨n, _, hattr⟩
          · simp [CachedCell.act, Cell.act, Unseen, hattr, Cell.getattr_none]
          · simp [CachedCell.act, Cell.act, Unseen, hattr, Cell.getattr_none]
      | remove => simp [CachedCell.act, Cell.act, Unseen, Cell.get_none]
      | _ => exact ⟨fun _ => trivial, fun _ => rfl⟩
  | false =>
      rcases h with ⟨buf, server⟩ | ⟨content, size, _, hcontent, hsize⟩
      · cases call <;> simp [CachedCell.act, Cell.act, Unseen, Cell.of, Cell.get, Cell.getattr]
      · cases call with
        | get =>
            cases content with
            | none => simp [CachedCell.act, Cell.act, Unseen]
            | some buf => simp [CachedCell.act, Cell.act, Unseen, hcontent buf rfl]
        | getattr =>
            cases size with
            | none => simp [CachedCell.act, Cell.act, Unseen]
            | some n => simp [CachedCell.act, Cell.act, Unseen, Cell.getattr, hsize n rfl]
        | remove => simp [CachedCell.act, Cell.act, Unseen, eq_comm]
        | _ => exact ⟨fun _ => trivial, fun _ => rfl⟩

/-- And then the two cells still stand for the same extent. -/
theorem act_related (removed : Bool) (k : CachedCell) (d : Cell) (h : Related removed k d)
    (call : ClientCall) (hu : Unseen removed k call) :
    Related (call.removes removed) (k.act call).2 (d.act call).2 := by
  cases removed with
  | true =>
      rcases h with ⟨dirty, server⟩
      cases call with
      | get =>
          simp only [CachedCell.act, if_neg (hu rfl)]
          exact Dropped.mk dirty server
      | getattr =>
          rcases server.getattr_cases with ⟨_, hattr⟩ | ⟨n, _, hattr⟩
          · simp only [CachedCell.act, hattr]
            exact Dropped.mk dirty server
          · exact absurd (congrArg Prod.fst hattr) (hu rfl)
      | put buf => exact Shadows.dirty buf server
      | remove => exact absurd hu.1 (by simp only [Bool.true_eq_false, not_false_eq_true])
      | flush => exact Dropped.mk false _
  | false =>
      rcases h with ⟨buf, server⟩ | ⟨content, size, _, hcontent, hsize⟩
      · cases call with
        | get => exact Shadows.dirty buf server
        | getattr => exact Shadows.dirty buf server
        | put buf' => exact Shadows.dirty buf' server
        | remove => exact Dropped.mk true server
        | flush =>
            exact Shadows.clean none none (Cell.of buf) (fun _ hc => by cases hc)
              (fun _ hc => by cases hc)
      · cases call with
        | get =>
            cases content with
            | some buf => exact Shadows.clean (some buf) size d hcontent hsize
            | none =>
                rcases d.get_cases with hget | ⟨buf, hget⟩
                · simp only [CachedCell.act, hget, reduceCtorEq, if_false]
                  exact Shadows.clean none size d hcontent hsize
                · simp only [CachedCell.act, hget, if_true]
                  refine Shadows.clean (some buf) size d (fun buf' hb => ?_) hsize
                  rw [← Option.some.inj hb]
                  exact hget
        | getattr =>
            cases size with
            | some n => exact Shadows.clean content (some n) d hcontent hsize
            | none =>
                -- A size that has been fetched is the server's.
                refine Shadows.clean content d.getattr.2 d hcontent (fun n hn => ?_)
                rcases d.getattr_cases with ⟨_, hattr⟩ | ⟨m, hm, hattr⟩
                · rw [hattr] at hn
                  cases hn
                · rw [hattr] at hn
                  rw [hm]
                  exact hn
        | put buf => exact Shadows.dirty buf d
        | remove =>
            have hget : d.get.1 = .ok := by
              simpa only [Bool.false_eq_true, false_or] using hu.2
            simp only [Cell.act, if_pos hget]
            exact Dropped.mk false d
        | flush =>
            exact Shadows.clean none none d (fun _ hc => by cases hc)
              (fun _ hc => by cases hc)

/-! ## Sessions -/

/-- Every call of a session is unseen, in the state it is made in. -/
def AllUnseen (removed : Inum → Bool) (c : ExtentClient) (srv : ExtentServer) :
    List (UInt32 × Inum × ClientCall) → Prop
  | [] => True
  | (now, eid, call) :: calls =>
      Unseen (removed eid) (c.cell srv eid) call ∧
        AllUnseen (Function.update removed eid (call.removes (removed eid)))
          (c.perform srv now eid call).2.1 (c.perform srv now eid call).2.2 calls

/-- Call by call: the answers so far are equal, and the cells still stand for the same extents. As
    the condition on a call is exact, so is the one on the session. -/
theorem answers_iff_of_related (calls : List (UInt32 × Inum × ClientCall))
    (removed : Inum → Bool) (c : ExtentClient) (srv d : ExtentServer)
    (h : ∀ e, Related (removed e) (c.cell srv e) (d.cell e)) :
    c.answers srv calls = d.answers calls ↔ AllUnseen removed c srv calls := by
  induction calls generalizing removed c srv d with
  | nil => exact ⟨fun _ => trivial, fun _ => rfl⟩
  | cons head calls ih =>
      rcases head with ⟨now, eid, call⟩
      rcases c.perform_cell srv now eid call with ⟨hans, hcell⟩
      rcases d.perform_cell now eid call with ⟨hans', hcell'⟩
      have hiff := act_answer_iff (removed eid) _ _ (h eid) call
      simp only [ExtentClient.answers, ExtentServer.answers, List.cons.injEq, AllUnseen, hans,
        hans', hiff]
      refine and_congr_right fun hu => ih _ _ _ _ fun e => ?_
      rw [hcell, hcell']
      by_cases he : e = eid
      · subst he
        simp only [Function.update_self]
        exact act_related (removed e) _ _ (h e) call hu
      · simp only [Function.update_of_ne he]
        exact h e

/-- A session through an empty cache is answered like the session on the server itself exactly if no
    call of it meets a removal that the server has not heard of. The cache forgets what it is told
    to remove, and does not tell the server. -/
theorem answers_eq_iff (srv : ExtentServer) (calls : List (UInt32 × Inum × ClientCall)) :
    ExtentClient.new.answers srv calls = srv.answers calls ↔
      AllUnseen (fun _ => false) ExtentClient.new srv calls := by
  refine answers_iff_of_related calls _ _ _ _ fun e => ?_
  exact Shadows.clean none none (srv.cell e) (fun _ hc => by cases hc) (fun _ hc => by cases hc)

/-- A file is written and flushed, removed, and read. -/
def removedExtent : List (UInt32 × Inum × ClientCall) :=
  [(1, 5, .put [97]), (2, 5, .flush), (3, 5, .remove), (4, 5, .get)]

/-- The extent is read back from the server after its removal. -/
theorem removed_extent_answers :
    ExtentClient.new.answers (ExtentServer.new 0) removedExtent
        = [.status .ok, .status .ok, .status .ok, .content .ok [97]] ∧
      (ExtentServer.new 0).answers removedExtent
        = [.status .ok, .status .ok, .status .ok, .content .ioerr []] := by
  exact ⟨by decide, by decide⟩

end Yfs
