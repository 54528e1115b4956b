import Mathlib.Data.List.Nodup
import Nix.Ip.Fragments

namespace Ip

variable {κ : Type*} [DecidableEq κ] {now : Nat} {key k : κ} {f : Fragment κ} {before fs l l' : List (Fragment κ)}

def queueIn (l : List (Fragment κ)) (k : κ) : Option (List Block) :=
  (l.find? (·.key = k)).map Fragment.blist

def Distinct (l : List (Fragment κ)) : Prop :=
  (l.map Fragment.key).Nodup

theorem queueIn_eq_none_iff : queueIn l k = none ↔ ∀ f ∈ l, f.key ≠ k := by
  simp [queueIn]

theorem queueIn_cons : queueIn (f :: l) k = if f.key = k then some f.blist else queueIn l k := by
  simp only [queueIn, List.find?_cons]
  by_cases h : f.key = k <;> simp [h]

theorem queueIn_append (h : ∀ f ∈ l, f.key ≠ k) : queueIn (l ++ l') k = queueIn l' k := by
  have : l.find? (·.key = k) = none := by simpa using h
  rw [queueIn, List.find?_append, this, Option.none_or, queueIn]

omit [DecidableEq κ] in
theorem Distinct.of_append_cons (h : Distinct (before ++ f :: fs)) :
    Distinct (before ++ fs) ∧ ∀ g ∈ before ++ fs, g.key ≠ f.key := by
  rw [Distinct, List.map_append, List.map_cons, List.nodup_middle, List.nodup_cons, ← List.map_append] at h
  exact ⟨h.right, fun g hg he => h.left <| he ▸ List.mem_map_of_mem hg⟩

theorem queueIn_middle (h : Distinct (before ++ f :: fs)) : queueIn (before ++ f :: fs) f.key = some f.blist := by
  rw [queueIn_append fun g hg => h.of_append_cons.right g (List.mem_append_left _ hg), queueIn_cons, if_pos rfl]

-- A list from which queues are left out has the queue of a packet still, or does not have one.
theorem Distinct.queueIn_sublist (h : Distinct l) (hs : l'.Sublist l) :
    queueIn l' k = queueIn l k ∨ queueIn l' k = none := by
  cases hq : queueIn l' k
  case none => exact .inr rfl
  case some q =>
    obtain ⟨f, hf, rfl⟩ := Option.map_eq_some_iff.mp hq
    have hk : f.key = k := by simpa using List.find?_some hf
    obtain ⟨pre, post, rfl⟩ := List.append_of_mem <| hs.subset <| List.mem_of_find?_eq_some hf
    subst hk
    exact .inl (queueIn_middle h).symm

omit [DecidableEq κ] in
theorem Distinct.sublist (h : Distinct l) (hs : l'.Sublist l) : Distinct l' :=
  List.Nodup.sublist (hs.map _) h

theorem scan_none (h : scan now key l = (before, none)) : before.Sublist l ∧ ∀ f ∈ l, f.key ≠ key := by
  induction l generalizing before
  case nil =>
    obtain rfl := (Prod.mk.inj h).left
    exact ⟨.slnil, nofun⟩
  case cons g l ih =>
    rw [scan] at h
    split at h
    case isTrue => cases h
    case isFalse hg =>
      obtain ⟨rfl, hr⟩ := Prod.mk.inj h
      have ⟨hs, hl⟩ := ih <| Prod.ext rfl hr
      refine ⟨?_, List.forall_mem_cons.mpr ⟨hg, hl⟩⟩
      split
      · exact hs.cons g
      · exact hs.cons_cons g

theorem scan_some (h : scan now key l = (before, some (f, fs))) :
    f.key = key ∧ (before ++ f :: fs).Sublist l := by
  induction l generalizing before
  case nil => cases h
  case cons g l ih =>
    rw [scan] at h
    split at h
    case isTrue hg =>
      cases h
      exact ⟨hg, .refl _⟩
    case isFalse hg =>
      obtain ⟨rfl, hr⟩ := Prod.mk.inj h
      have ⟨hf, hs⟩ := ih <| Prod.ext rfl hr
      refine ⟨hf, ?_⟩
      split
      · exact hs.cons g
      · exact hs.cons_cons g

namespace Frags

def queue (ip : Frags κ) (k : κ) : Option (List Block) :=
  queueIn ip.flisthead k

end Frags

variable {hdr foff flen : Nat} {more : Block → Bool} {packet : List Block → List Block} {fragmented : Bool}
variable {ip : Frags κ} {bp : Block}

-- What becomes of a packet and of the queue for it.
inductive Outcome (hdr : Nat) (more : Block → Bool) (packet : List Block → List Block) (bp : Block) :
    Option (List Block) → Option (List Block) → Option (List Block) → Prop
  | first : Outcome hdr more packet bp none none (some [bp])
  | covered {q} (he : enqueue hdr bp q = none) : Outcome hdr more packet bp (some q) none (some q)
  | done {q q'} (he : enqueue hdr bp q = some q') (hc : complete more 0 q') :
      Outcome hdr more packet bp (some q) (some <| packet q') none
  | queued {q q'} (he : enqueue hdr bp q = some q') (hc : ¬complete more 0 q') :
      Outcome hdr more packet bp (some q) none (some q')

omit [DecidableEq κ] in
theorem ipfragallo_flisthead (now : Nat) (key : κ) (blist : List Block) (ip : Frags κ) :
    ∃ l f, l.Sublist ip.flisthead ∧ f.key = key ∧ f.blist = blist ∧
      (ipfragallo now key blist ip).flisthead = f :: l := by
  rw [ipfragallo]
  split
  · exact ⟨_, _, List.dropLast_sublist _, rfl, rfl, rfl⟩
  · exact ⟨_, _, .refl _, rfl, rfl, rfl⟩

theorem reassemble_passed (hd : Distinct ip.flisthead) :
    let r := reassemble hdr more packet now key false foff flen ip bp
    r.fst = some [bp] ∧ r.snd.queue key = none ∧ Distinct r.snd.flisthead ∧
      ∀ k ≠ key, r.snd.queue k = ip.queue k ∨ r.snd.queue k = none := by
  intro r
  simp only [r, reassemble]
  split
  case h_1 before h =>
    have ⟨hs, hl⟩ := scan_none h
    exact ⟨rfl, queueIn_eq_none_iff.mpr fun f hf => hl f <| hs.subset hf, hd.sublist hs,
      fun k _ => hd.queueIn_sublist hs⟩
  case h_2 before f fs h =>
    have ⟨hf, hs⟩ := scan_some h
    have hs' : (before ++ fs).Sublist ip.flisthead := .trans (List.Sublist.append_left (List.sublist_cons_self ..) _) hs
    have hn := (hd.sublist hs).of_append_cons.right
    exact ⟨rfl, queueIn_eq_none_iff.mpr fun g hg => hf ▸ hn g hg, hd.sublist hs', fun k _ => hd.queueIn_sublist hs'⟩

theorem reassemble_fragment (hd : Distinct ip.flisthead) :
    let r := reassemble hdr more packet now key true foff flen ip bp
    Outcome hdr more packet { bp with foff, flen } (ip.queue key) r.fst (r.snd.queue key) ∧
      Distinct r.snd.flisthead ∧ ∀ k ≠ key, r.snd.queue k = ip.queue k ∨ r.snd.queue k = none := by
  intro r
  simp only [r, reassemble]
  split
  case h_1 before h =>
    have ⟨hs, hl⟩ := scan_none h
    have hq : ip.queue key = none := queueIn_eq_none_iff.mpr hl
    obtain ⟨l, f, hls, hf, hb, hr⟩ := ipfragallo_flisthead now key [{ bp with foff, flen }]
      { flisthead := before, fragfree := ip.fragfree + (ip.flisthead.length - before.length) }
    have hls := List.Sublist.trans hls hs
    simp only [if_true, Frags.queue, hr]
    refine ⟨?_, ?_, fun k hk => ?_⟩
    · rw [← Frags.queue, hq, queueIn_cons, if_pos hf, hb]
      exact .first
    · exact List.nodup_cons.mpr ⟨fun hm => by
        obtain ⟨g, hg, he⟩ := List.mem_map.mp hm
        exact hl g (hls.subset hg) (he.trans hf), hd.sublist hls⟩
    · rw [queueIn_cons, if_neg (hf ▸ hk.symm)]
      exact hd.queueIn_sublist hls
  case h_2 before f fs h =>
    have ⟨hf, hs⟩ := scan_some h
    have hdf := hd.sublist hs
    have hq : ip.queue key = some f.blist := by
      have := queueIn_middle hdf
      rcases hd.queueIn_sublist (k := f.key) hs with he | he
      · rw [Frags.queue, ← hf, ← he, this]
      · rw [this] at he
        contradiction
    subst hf
    -- The queue with other blocks is in the place of the queue.
    have hput (blist : List Block) : Distinct (before ++ { f with blist } :: fs) ∧
        queueIn (before ++ { f with blist } :: fs) f.key = some blist ∧
        ∀ k ≠ f.key, queueIn (before ++ { f with blist } :: fs) k = queueIn (before ++ f :: fs) k := by
      have hdp : Distinct (before ++ { f with blist } :: fs) := by
        rw [Distinct, List.map_append, List.map_cons] at *
        exact hdf
      refine ⟨hdp, queueIn_middle hdp, fun k hk => ?_⟩
      simp only [queueIn, List.find?_append, List.find?_cons, hk.symm, decide_false]
    simp only [if_true]
    rw [hq]
    split
    case h_1 he =>
      refine ⟨?_, hdf, fun k _ => hd.queueIn_sublist hs⟩
      rw [Frags.queue, queueIn_middle hdf]
      exact .covered he
    case h_2 q he =>
      split
      case isTrue hc =>
        have hs' : (before ++ fs).Sublist ip.flisthead :=
          .trans (List.Sublist.append_left (List.sublist_cons_self ..) _) hs
        refine ⟨?_, hd.sublist hs', fun k _ => hd.queueIn_sublist hs'⟩
        rw [Frags.queue, queueIn_eq_none_iff.mpr hdf.of_append_cons.right]
        exact .done he hc
      case isFalse hc =>
        have ⟨hdp, hqp, hop⟩ := hput q
        refine ⟨?_, hdp, fun k hk => ?_⟩
        · rw [Frags.queue, hqp]
          exact .queued he hc
        · rw [Frags.queue, hop k hk]
          exact hd.queueIn_sublist hs

theorem reassemble_other (hd : Distinct ip.flisthead) :
    let r := reassemble hdr more packet now key fragmented foff flen ip bp
    Distinct r.snd.flisthead ∧ ∀ k ≠ key, r.snd.queue k = ip.queue k ∨ r.snd.queue k = none := by
  cases fragmented
  case false => exact (reassemble_passed hd).right.right
  case true => exact (reassemble_fragment hd).right

end Ip
