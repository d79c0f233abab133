import Zelavis.Db.Followers
import Zelavis.Db.SealStops

/-!
# Followers that agree object by object

What a follower keeps of an object is a fold of that object's events alone. Followers that get the
events of every object in one order, however those of different objects are interleaved, keep the same
payloads, versions and manifests, and answer alike.
-/

namespace Zelavis.Db.Followers

open Lib OrderedMap List

variable {c c' : Contents} {m m' : Store} {seq : Seq} {event : DbEvent} {es : List DbEvent}

/-- The payload and the manifest an object is kept by. -/
abbrev Kept := Option Stored × Option Stored

def keptOf (c : Contents) (seq : Seq) : Kept := (c (payloadKey seq), c (manifestKey seq))

def Kept.version (kept : Kept) : ℕ := (kept.1.elim (some 0) recordU32).getD 0

/-- What an event that is carried out leaves of its object. -/
def outcome : DbEvent → Kept
  | .objectPut _ _ _ version bytes manifest _ =>
    (some (encodePayload version bytes), some (.manifest (jsonManifest manifest)))
  | .objectRetracted .. => (none, none)

def Kept.next (kept : Kept) (event : DbEvent) : Kept :=
  if event.version ≤ kept.version then kept else outcome event

/-- The events about an object, in their order. -/
def about (seq : Seq) (es : List DbEvent) : List DbEvent := es.filter (·.seq % 2 ^ 32 = seq % 2 ^ 32)

lemma keptOf_committed {pos : ℕ} {u : Bytes} : keptOf (committed c pos u) seq = keptOf c seq := by
  have h := alike_committed c pos u
  rw [keptOf, keptOf, h.tag (by simp +decide), h.tag (by simp +decide)]

lemma keptOf_append {stored : StoredEvent} {pos : ℕ} : keptOf (appendC stored pos c) seq = keptOf c seq := by
  rw [keptOf, keptOf, append_of_ne (ne_of_tag (by simp +decide)), append_of_ne (ne_of_tag (by simp +decide))]

lemma keptOf_project {other : Seq} {version : ℕ} {body : Bytes} {manifest : IndexManifest} {sealed : Bool}
    {identity : Option ObjectIdentity} (h : projectC other version body manifest sealed identity c = some c') :
    keptOf c' seq = if seq % 2 ^ 32 = other % 2 ^ 32 then
      (some (encodePayload version body), some (.manifest (jsonManifest manifest))) else keptOf c seq := by
  rw [keptOf, (project_objects h seq).1, (project_objects h seq).2]
  split_ifs <;> rfl

lemma keptOf_remove {other : Seq} {sealed : Bool} (h : removeC other sealed c = some c') :
    keptOf c' seq = if seq % 2 ^ 32 = other % 2 ^ 32 then (none, none) else keptOf c seq := by
  rw [keptOf, (remove_objects h seq).1, (remove_objects h seq).2]
  split_ifs <;> rfl

lemma Effect.keptOf (h : Effect event c c') : keptOf c' seq =
    if event.seq % 2 ^ 32 = seq % 2 ^ 32 then (keptOf c seq).next event else keptOf c seq := by
  have hversion : ∀ seen, versionC event.seq c = some seen → event.seq % 2 ^ 32 = seq % 2 ^ 32 →
      (Followers.keptOf c seq).version = seen := fun seen hseen heq => by
    rw [versionC, payloadKey_inj.2 heq] at hseen
    rw [Kept.version, Followers.keptOf]
    cases hp : c (payloadKey seq) with
    | none | some stored => simp_all
  cases h with
  | skipped u hseen hp hle =>
    rw [keptOf_committed]
    split_ifs with heq
    · rw [Kept.next, hversion _ hseen heq, if_pos hle]
    · rfl
  | @logged seen p n d u hseen hp hlt hn hd =>
    have hd : Followers.keptOf d seq =
        if seq % 2 ^ 32 = event.seq % 2 ^ 32 then outcome event else Followers.keptOf c seq := by
      rw [← show Followers.keptOf (appendC event.stored (p + 1) c) seq = _ from keptOf_append]
      cases event with
      | objectPut => exact keptOf_project hd
      | objectRetracted => exact keptOf_remove hd
    rw [keptOf_committed, hd]
    simp only [eq_comm (a := seq % 2 ^ 32)]
    split_ifs with heq
    · rw [Kept.next, hversion _ hseen heq, if_neg (not_le.2 hlt)]
    · rfl

lemma Consumed.keptOf (h : Consumed es m m') (seq : Seq) :
    keptOf m'.get seq = (about seq es).foldl Kept.next (keptOf m.get seq) := by
  induction h with
  | nil m => rfl
  | cons h _ ih =>
    rw [ih, h.effect.keptOf, about, about, filter_cons]
    simp only [decide_eq_true_eq]
    split_ifs with heq <;> rfl

end Zelavis.Db.Followers
