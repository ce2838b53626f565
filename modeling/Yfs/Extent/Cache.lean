import Mathlib.Algebra.Group.Nat.Defs
import Mathlib.Logic.Function.Basic

/-! The write-back block cache, `extent_client_cache`, between two waits.

Every call takes `cache_map_mutex` and keeps it across its RPC, so a call is cut where
it waits for the extent server: `get` up to its RPC and after it, `flush` up to its RPC
and after it. `cache_map[eid]` creates the entry it does not find; `Cache()` sets two
of the flags and leaves the rest as it was in memory. -/
namespace Yfs.Extent

/-- `extent_protocol::extentid_t`. -/
abbrev Eid := BitVec 64

/-- `extent_client_cache::Cache`, the block part. -/
structure Cache (D : Type) where
  dataCache : D
  isDataCached : Bool
  isDataDirty : Bool
  deriving DecidableEq

/-- `cache_map`. -/
abbrev CacheMap (D : Type) := Eid → Option (Cache D)

variable {D : Type}

/-- `Cache()` on memory that holds `junk` and `dirty`. -/
def Cache.new (junk : D) (dirty : Bool) : Cache D := ⟨junk, false, dirty⟩

namespace CacheMap

/-- `cache_map[eid]`, where a new entry is `fresh`. -/
def entry (m : CacheMap D) (eid : Eid) (fresh : Cache D) : Cache D := (m eid).getD fresh

def set (m : CacheMap D) (eid : Eid) (e : Option (Cache D)) : CacheMap D :=
  fun eid' => if eid' = eid then e else m eid'

/-- `get` up to its RPC: the cached block, or nothing and the RPC follows. -/
def get (m : CacheMap D) (eid : Eid) (fresh : Cache D) : CacheMap D × Option D :=
  let cache := m.entry eid fresh
  (m.set eid (some cache), if cache.isDataCached then some cache.dataCache else none)

/-- `get` after its RPC returned `buf`. -/
def fill (m : CacheMap D) (eid : Eid) (buf : D) : CacheMap D := m.set eid (some ⟨buf, true, false⟩)

def put (m : CacheMap D) (eid : Eid) (buf : D) : CacheMap D := m.set eid (some ⟨buf, true, true⟩)

/-- `flush` up to its RPC: the block to put, or nothing and no RPC is made. -/
def flush (m : CacheMap D) (eid : Eid) (fresh : Cache D) : CacheMap D × Option D :=
  let cache := m.entry eid fresh
  (m.set eid (some cache), if cache.isDataDirty then some cache.dataCache else none)

/-- `cache_map.erase(eid)`, the end of `flush`. -/
def erase (m : CacheMap D) (eid : Eid) : CacheMap D := m.set eid none

@[simp] theorem set_self (m : CacheMap D) (eid : Eid) (e : Option (Cache D)) : m.set eid e eid = e :=
  if_pos rfl

theorem set_ne {m : CacheMap D} {eid eid' : Eid} {e : Option (Cache D)} (h : eid' ≠ eid) :
    m.set eid e eid' = m eid' := if_neg h

theorem erase_set (m : CacheMap D) (eid : Eid) (e : Option (Cache D)) : (m.set eid e).erase eid = m.set eid none := by
  funext eid'
  unfold erase set
  by_cases heq : eid' = eid
  · rw [if_pos heq, if_pos heq]
  · rw [if_neg heq, if_neg heq, if_neg heq]

end CacheMap

end Yfs.Extent
