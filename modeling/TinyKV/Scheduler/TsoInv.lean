import TinyKV.Go
import TinyKV.Scheduler.Tso

/-!
# What holds of the timestamp oracles

A leadership starts with a successful `SyncTimestamp`.
-/

namespace TinyKV

open List

def TimestampOracle.Leads (o : TimestampOracle) (k : ℕ) : Prop :=
  o.phase = .leading k ∨ ∃ next, o.phase = .updating k next

theorem TimestampOracle.Leads.unique {o : TimestampOracle} {k k' : ℕ} (h : o.Leads k)
    (h' : o.Leads k') : k = k' := by
  rcases h with h | ⟨_, h⟩ <;> rcases h' with h' | ⟨_, h'⟩ <;> rw [h] at h' <;> cases h' <;> rfl

def LastBefore (x : Int64) : Prop := -1000000 < x.toInt ∧ x.toInt < 0

def TsoPhase.next : TsoPhase → Option Int64
  | .syncing next | .updating _ next => some next
  | _ => none

namespace TsoHistory

def Saved (l : TsoHistory) (k : ℕ) (b : Int64) : Prop := l.saved[k]? = some b

/-- In the leadership `k`, the oracle has the time `x` and has saved `b`. -/
structure LeadsAt (l : TsoHistory) (o : TimestampOracle) (k : ℕ) (x b : Int64) : Prop where
  current : ∃ ptr, o.ts = .object ptr ∧ l.objects[ptr]? = some ⟨x, k⟩
  lastSaved : o.lastSavedTime = .unix b
  saved : l.Saved k b
  newest : ∀ a ∈ l.objects, a.leadership = k → a.physical.toInt ≤ x.toInt

structure Ordered (l : TsoHistory) : Prop where
  object_lt : ∀ a ∈ l.objects, ∃ b, l.Saved a.leadership b ∧ a.physical.toInt + 1000000 < b.toInt
  object_ge : ∀ a ∈ l.objects, ∀ k b, k < a.leadership → l.Saved k b →
    b.toInt + 1000000 ≤ a.physical.toInt
  spaced : l.objects.Pairwise fun a a' => a.leadership = a'.leadership →
    a.physical.toInt + 1000000 ≤ a'.physical.toInt

variable {l : TsoHistory} {o : TimestampOracle} {k k' : ℕ} {x b next save : Int64}

theorem Saved.lt_length (h : l.Saved k b) : k < l.saved.length :=
  (List.getElem?_eq_some_iff.mp h).1

theorem Saved.unique {b' : Int64} (h : l.Saved k b) (h' : l.Saved k b') : b = b' :=
  Option.some.inj (h.symm.trans h')

theorem LeadsAt.mem (h : l.LeadsAt o k x b) : ⟨x, k⟩ ∈ l.objects := by
  obtain ⟨ptr, -, hobject⟩ := h.current
  exact mem_of_getElem? hobject

theorem Ordered.lt_of_leadsAt (h : l.Ordered) (hat : l.LeadsAt o k x b) :
    x.toInt + 1000000 < b.toInt := by
  obtain ⟨b', hb', hlt⟩ := h.object_lt _ hat.mem
  rwa [hb'.unique hat.saved] at hlt

theorem Ordered.saved_le (h : l.Ordered) (hat : l.LeadsAt o k x b) {j : ℕ} {c : Int64} (hj : j < k)
    (hc : l.Saved j c) : c.toInt + 1000000 ≤ x.toInt :=
  h.object_ge _ hat.mem j c hj hc

theorem LeadsAt.spaced (h : l.LeadsAt o k x b) (hx : x.toInt + 1000000 ≤ next.toInt) :
    ∀ a ∈ l.objects, a.leadership = k → a.physical.toInt + 1000000 ≤ next.toInt := by
  intro a ha hk
  have := h.newest a ha hk
  omega

def store (l : TsoHistory) (next : Int64) (k : ℕ) : TsoHistory :=
  { l with objects := l.objects ++ [⟨next, k⟩] }

def storing (l : TsoHistory) (o : TimestampOracle) (k : ℕ) : TimestampOracle :=
  { o with ts := .object l.objects.length, phase := .leading k }

theorem leads_storing : (l.storing o k).Leads k' ↔ k = k' := by
  simp [TimestampOracle.Leads, storing]

theorem LeadsAt.store_of_ne (h : l.LeadsAt o k x b) (hne : k ≠ k') :
    (l.store next k').LeadsAt o k x b := by
  obtain ⟨ptr, hptr, hobject⟩ := h.current
  refine ⟨⟨ptr, hptr, Go.getElem?_concat_eq_some.mpr (.inl hobject)⟩, h.lastSaved, h.saved, ?_⟩
  intro a ha hk
  rcases mem_append.mp ha with ha | ha
  · exact h.newest a ha hk
  · obtain rfl := mem_singleton.mp ha
    exact absurd hk.symm hne

theorem leadsAt_store (hlast : o.lastSavedTime = .unix b) (hsaved : l.Saved k b)
    (hnew : ∀ a ∈ l.objects, a.leadership = k → a.physical.toInt + 1000000 ≤ next.toInt) :
    (l.store next k).LeadsAt (l.storing o k) k next b := by
  refine ⟨⟨_, rfl, Go.getElem?_concat_eq_some.mpr (.inr ⟨rfl, rfl⟩)⟩, hlast, hsaved, ?_⟩
  intro a ha hk
  rcases mem_append.mp ha with ha | ha
  · have := hnew a ha hk
    omega
  · obtain rfl := mem_singleton.mp ha
    exact Int.le_refl _

theorem Ordered.store (h : l.Ordered) (hsaved : l.Saved k b) (hlt : next.toInt + 1000000 < b.toInt)
    (hge : ∀ j c, j < k → l.Saved j c → c.toInt + 1000000 ≤ next.toInt)
    (hnew : ∀ a ∈ l.objects, a.leadership = k → a.physical.toInt + 1000000 ≤ next.toInt) :
    (l.store next k).Ordered := by
  refine ⟨fun a ha => ?_, fun a ha => ?_, ?_⟩
  · rcases mem_append.mp ha with ha | ha
    · exact h.object_lt a ha
    · obtain rfl := mem_singleton.mp ha
      exact ⟨b, hsaved, hlt⟩
  · rcases mem_append.mp ha with ha | ha
    · exact h.object_ge a ha
    · obtain rfl := mem_singleton.mp ha
      exact hge
  · refine pairwise_append.mpr ⟨h.spaced, pairwise_singleton _ _, fun a ha a' ha' => ?_⟩
    obtain rfl := mem_singleton.mp ha'
    exact hnew a ha

def raise (l : TsoHistory) (k : ℕ) (save : Int64) : TsoHistory :=
  { l with saved := l.saved.set k save }

theorem saved_raise (hk : k < l.saved.length) {j : ℕ} {c : Int64} :
    (l.raise k save).Saved j c ↔ j = k ∧ c = save ∨ j ≠ k ∧ l.Saved j c := by
  change (l.saved.set k save)[j]? = some c ↔ _
  rcases eq_or_ne j k with rfl | hne
  · simp [hk, eq_comm]
  · simp [getElem?_set_ne hne.symm, hne, Saved]

theorem LeadsAt.raise_of_ne (h : l.LeadsAt o k x b) (hne : k ≠ k') (hk' : k' < l.saved.length) :
    (l.raise k' save).LeadsAt o k x b :=
  { h with saved := (saved_raise hk').mpr (.inr ⟨hne, h.saved⟩) }

theorem Ordered.raise (h : l.Ordered) (hlast : k + 1 = l.saved.length) (hsaved : l.Saved k b)
    (hle : b.toInt ≤ save.toInt) : (l.raise k save).Ordered := by
  have hk := hsaved.lt_length
  refine ⟨fun a ha => ?_, fun a ha j c hj hc => ?_, h.spaced⟩
  · obtain ⟨c, hc, hlt⟩ := h.object_lt a ha
    rcases eq_or_ne a.leadership k with heq | hne
    · refine ⟨save, (saved_raise hk).mpr (.inl ⟨heq, rfl⟩), ?_⟩
      rw [heq] at hc
      rw [hc.unique hsaved] at hlt
      omega
    · exact ⟨c, (saved_raise hk).mpr (.inr ⟨hne, hc⟩), hlt⟩
  · obtain ⟨d, hd, -⟩ := h.object_lt a ha
    have hlt := hd.lt_length
    rcases (saved_raise hk).mp hc with ⟨rfl, -⟩ | ⟨-, hc⟩
    · omega
    · exact h.object_ge a ha j c hj hc

def start (l : TsoHistory) (save : Int64) : TsoHistory := { l with saved := l.saved ++ [save] }

theorem saved_start {c : Int64} :
    (l.start save).Saved k c ↔ l.Saved k c ∨ k = l.saved.length ∧ c = save :=
  Go.getElem?_concat_eq_some

theorem Ordered.start (h : l.Ordered) : (l.start save).Ordered := by
  refine ⟨fun a ha => ?_, fun a ha j c hj hc => ?_, h.spaced⟩
  · obtain ⟨c, hc, hlt⟩ := h.object_lt a ha
    exact ⟨c, saved_start.mpr (.inl hc), hlt⟩
  · obtain ⟨d, hd, -⟩ := h.object_lt a ha
    have hlt := hd.lt_length
    rcases saved_start.mp hc with hc | ⟨rfl, -⟩
    · exact h.object_ge a ha j c hj hc
    · omega

theorem LeadsAt.start (h : l.LeadsAt o k x b) : (l.start save).LeadsAt o k x b :=
  { h with saved := saved_start.mpr (.inl h.saved) }

end TsoHistory

def Fits (saveInterval last now : Int64) : Prop :=
  now.toInt + saveInterval.toInt < 2^63 ∧ last.toInt + 1000000 + saveInterval.toInt < 2^63 ∧
    last.toInt - now.toInt ≤ 2^63

instance (saveInterval last now : Int64) : Decidable (Fits saveInterval last now) :=
  inferInstanceAs (Decidable (_ ∧ _ ∧ _))

def TsoHistory.Above (saveInterval : Int64) (l : TsoHistory) (next : Int64) : Prop :=
  next.toInt + saveInterval.toInt < 2^63 ∧ ∀ k b, l.Saved k b → b.toInt + 1000000 ≤ next.toInt

def Follows (saveInterval next x : Int64) : Prop :=
  next.toInt + saveInterval.toInt < 2^63 ∧ x.toInt + 1000000 ≤ next.toInt

namespace TsoCluster

variable {μ : Type}

def InRange (saveInterval : Int64) (s : TsoCluster μ) : OracleEvent μ → Prop
  | .syncLoad _ now err => err = false → Fits saveInterval s.loadTimestamp.unixNano now
  | .update m now => ∀ c ∈ s.current m, Fits saveInterval c.2.physical now
  | _ => True

instance (saveInterval : Int64) (s : TsoCluster μ) :
    (e : OracleEvent μ) → Decidable (s.InRange saveInterval e)
  | .syncLoad _ _ _ => inferInstanceAs (Decidable (_ → Fits ..))
  | .update m now => inferInstanceAs (Decidable (∀ c ∈ s.current m, Fits _ _ now))
  | .campaign _ | .expire | .syncCommit .. | .updateCommit .. | .resign _ | .restart _ =>
    isTrue trivial

def Leading (saveInterval : Int64) (s : TsoCluster μ) (m : μ) (o : TimestampOracle) (k : ℕ)
    (P : Int64 → Prop) : Prop :=
  (s.leader = some m → k + 1 = s.saved.length) ∧
    ∃ x b, s.LeadsAt o k x b ∧ b.toInt ≤ x.toInt + saveInterval.toInt ∧ P x

def MemberInv (saveInterval : Int64) (s : TsoCluster μ) (m : μ) (o : TimestampOracle) : Prop :=
  match o.phase with
  | .idle | .campaigned => True
  | .syncing next => s.leader = some m → s.Above saveInterval next
  | .leading k => s.Leading saveInterval m o k fun _ => True
  | .updating k next => s.Leading saveInterval m o k (Follows saveInterval next)

/-- What holds of the oracles at any time. -/
structure Inv (saveInterval : Int64) (s : TsoCluster μ) : Prop where
  ordered : s.Ordered
  saved_le : ∀ k b, s.Saved k b → ∃ p, s.timestamp = some p ∧ b.toInt ≤ p.toInt
  member : ∀ m, s.MemberInv saveInterval m (s.members m)
  leads_inj : ∀ m m' k, (s.members m).Leads k → (s.members m').Leads k → m = m'

variable {saveInterval : Int64}

theorem inv_init (timestamp : Option Int64) :
    Inv saveInterval ({ timestamp := timestamp } : TsoCluster μ) := by
  refine ⟨⟨?_, ?_, List.Pairwise.nil⟩, ?_, fun _ => trivial, ?_⟩ <;>
    simp [TimestampOracle.Leads, TsoHistory.Saved]

variable {s s' : TsoCluster μ} {m : μ} {o : TimestampOracle} {k : ℕ} {next save : Int64}

theorem current_of_leadsAt {x b : Int64} (h : s.LeadsAt (s.members m) k x b) :
    ∃ ptr, s.current m = some (ptr, ⟨x, k⟩) := by
  obtain ⟨ptr, hptr, hobject⟩ := h.current
  refine ⟨ptr, ?_⟩
  rw [current, hptr]
  simp [hobject]

theorem memberInv_of_idle (h : o.phase = .idle) : s.MemberInv saveInterval m o := by
  rw [MemberInv, h]
  trivial

theorem MemberInv.mono (h : s.MemberInv saveInterval m o)
    (hleader : s'.leader = some m → s.leader = some m ∧ s'.saved = s.saved)
    (hat : ∀ k x b, o.Leads k → s.LeadsAt o k x b → s'.LeadsAt o k x b) :
    s'.MemberInv saveInterval m o := by
  have hleading : ∀ k P, o.Leads k → s.Leading saveInterval m o k P →
      s'.Leading saveInterval m o k P := by
    rintro k P hk ⟨hlast, x, b, hx, hP⟩
    refine ⟨fun hm => ?_, x, b, hat k x b hk hx, hP⟩
    rw [(hleader hm).2]
    exact hlast (hleader hm).1
  unfold MemberInv at h ⊢
  split at h
  · trivial
  · trivial
  · intro hm
    obtain ⟨hm, hsaved⟩ := hleader hm
    simp only [TsoHistory.Above, TsoHistory.Saved, hsaved]
    exact h hm
  · exact hleading _ _ (.inl ‹_›) h
  · exact hleading _ _ (.inr ⟨_, ‹_›⟩) h

theorem MemberInv.leading (h : s.MemberInv saveInterval m o) (hk : o.Leads k) :
    s.Leading saveInterval m o k fun _ => True := by
  rcases hk with hk | ⟨next, hk⟩
  · rwa [MemberInv, hk] at h
  · rw [MemberInv, hk] at h
    obtain ⟨hlast, x, b, hat, hwindow, -⟩ := h
    exact ⟨hlast, x, b, hat, hwindow, trivial⟩

theorem Inv.setLeader (h : s.Inv saveInterval) {leader : Option μ}
    (hidle : ∀ m, leader = some m → (s.members m).phase = .idle) :
    Inv saveInterval { s with leader := leader } := by
  refine ⟨h.ordered, h.saved_le, fun m => ?_, h.leads_inj⟩
  by_cases hm : leader = some m
  · exact memberInv_of_idle (hidle m hm)
  · exact (h.member m).mono (fun h => absurd h hm) fun _ _ _ _ hat => hat

theorem Inv.setTimestamp (h : s.Inv saveInterval)
    (hle : ∀ k b, s.Saved k b → b.toInt ≤ save.toInt) :
    Inv saveInterval { s with timestamp := some save } :=
  ⟨h.ordered, fun k b hb => ⟨save, rfl, hle k b hb⟩, h.member, h.leads_inj⟩

theorem Inv.le_of_last {x b : Int64} (h : s.Inv saveInterval) (hlast : k + 1 = s.saved.length)
    (hat : s.LeadsAt o k x b) (hb : b.toInt ≤ save.toInt) (j : ℕ) (c : Int64) (hc : s.Saved j c) :
    c.toInt ≤ save.toInt := by
  rcases eq_or_ne j k with rfl | hne
  · rw [hc.unique hat.saved]
    exact hb
  · have hj := hc.lt_length
    have hge := h.ordered.saved_le hat (by omega) hc
    have hlt := h.ordered.lt_of_leadsAt hat
    omega

theorem Inv.ne_of_leads {m' : μ} {k' : ℕ} (h : s.Inv saveInterval) (hm : (s.members m).Leads k)
    (hne : m' ≠ m) (hm' : (s.members m').Leads k') : k' ≠ k := by
  rintro rfl
  exact hne (h.leads_inj m' m k' hm' hm)

variable [DecidableEq μ]

theorem Inv.change (h : s.Inv saveInterval) (hmembers : s'.members = Function.update s.members m o)
    (hordered : s'.Ordered)
    (hsaved : ∀ k b, s'.Saved k b → ∃ p, s'.timestamp = some p ∧ b.toInt ≤ p.toInt)
    (hm : s'.MemberInv saveInterval m o)
    (hleader : ∀ m', m' ≠ m → s'.leader = some m' → s.leader = some m' ∧ s'.saved = s.saved)
    (hat : ∀ m' k x b, m' ≠ m → (s.members m').Leads k → s.LeadsAt (s.members m') k x b →
      s'.LeadsAt (s.members m') k x b)
    (hinj : ∀ m' k, m' ≠ m → (s.members m').Leads k → ¬ o.Leads k) : s'.Inv saveInterval := by
  refine ⟨hordered, hsaved, fun m' => ?_, fun m₁ m₂ k h₁ h₂ => ?_⟩
  · rw [hmembers]
    rcases eq_or_ne m' m with rfl | hne
    · rwa [Function.update_self]
    · rw [Function.update_of_ne hne]
      exact (h.member m').mono (hleader m' hne) fun k x b => hat m' k x b hne
  · rw [hmembers] at h₁ h₂
    by_contra hne
    rcases eq_or_ne m₁ m with rfl | hne₁
    · rw [Function.update_self] at h₁
      rw [Function.update_of_ne (Ne.symm hne)] at h₂
      exact hinj m₂ k (Ne.symm hne) h₂ h₁
    · rw [Function.update_of_ne hne₁] at h₁
      rcases eq_or_ne m₂ m with rfl | hne₂
      · rw [Function.update_self] at h₂
        exact hinj m₁ k hne₁ h₁ h₂
      · rw [Function.update_of_ne hne₂] at h₂
        exact hne (h.leads_inj m₁ m₂ k h₁ h₂)

theorem Inv.setMember (h : s.Inv saveInterval) (ho : s.MemberInv saveInterval m o)
    (hleads : ∀ k, o.Leads k → (s.members m).Leads k) : (s.setMember m o).Inv saveInterval :=
  h.change rfl h.ordered h.saved_le ho (fun _ _ hm => ⟨hm, rfl⟩) (fun _ _ _ _ _ _ hat => hat)
    fun m' k hne hm' ho => hne (h.leads_inj m' m k hm' (hleads k ho))

theorem Inv.setLeading (h : s.Inv saveInterval) (ho : s.MemberInv saveInterval m o)
    (hk : o.Leads k) (hm : (s.members m).Leads k) : (s.setMember m o).Inv saveInterval :=
  h.setMember ho fun _ hk' => hk.unique hk' ▸ hm

theorem Inv.setIdle (h : s.Inv saveInterval) (ho : o.phase = .idle) :
    (s.setMember m o).Inv saveInterval :=
  h.setMember (memberInv_of_idle ho) (by simp [TimestampOracle.Leads, ho])

theorem Inv.store {x b : Int64} (h : s.Inv saveInterval)
    (hphase : (s.members m).phase = .leading k) (hlast : s.leader = some m → k + 1 = s.saved.length)
    (hat : s.LeadsAt (s.members m) k x b) (hwindow : b.toInt ≤ x.toInt + saveInterval.toInt)
    (hx : x.toInt + 1000000 ≤ next.toInt) (hb : next.toInt + 1000000 < b.toInt) :
    (s.store m next k).Inv saveInterval := by
  have hleads : (s.members m).Leads k := .inl hphase
  have hnew := hat.spaced hx
  refine h.change rfl (h.ordered.store hat.saved hb (fun j c hj hc => ?_) hnew) h.saved_le
    ⟨hlast, next, b, TsoHistory.leadsAt_store hat.lastSaved hat.saved hnew, by omega, trivial⟩
    (fun _ _ hm => ⟨hm, rfl⟩)
    (fun _ _ _ _ hne hm' hat' => hat'.store_of_ne (h.ne_of_leads hleads hne hm'))
    fun _ _ hne hm' ho => h.ne_of_leads hleads hne hm' (TsoHistory.leads_storing.mp ho).symm
  have := h.ordered.saved_le hat hj hc
  omega

def raised (s : TsoCluster μ) (m : μ) (k : ℕ) (next save : Int64) : TsoCluster μ where
  toTsoHistory := (s.raise k save).store next k
  timestamp := some save
  leader := s.leader
  members := Function.update s.members m
    (s.storing { s.members m with lastSavedTime := .unix save } k)

theorem Inv.raised {x b : Int64} (h : s.Inv saveInterval) (hleader : s.leader = some m)
    (hleads : (s.members m).Leads k) (hlast : k + 1 = s.saved.length)
    (hat : s.LeadsAt (s.members m) k x b) (hx : x.toInt + 1000000 ≤ next.toInt)
    (hb : b.toInt ≤ save.toInt) (hsave : save.toInt = next.toInt + saveInterval.toInt)
    (hguard : 1000000 < saveInterval.toInt) : (s.raised m k next save).Inv saveInterval := by
  have hk := hat.saved.lt_length
  have hnew := hat.spaced hx
  have hsaved : (s.raise k save).Saved k save := (TsoHistory.saved_raise hk).mpr (.inl ⟨rfl, rfl⟩)
  refine h.change rfl ((h.ordered.raise hlast hat.saved hb).store hsaved (by omega)
    (fun j c hj hc => ?_) hnew) (fun j c hc => ⟨save, rfl, ?_⟩)
    ⟨fun _ => ?_, next, save, TsoHistory.leadsAt_store rfl hsaved hnew, by omega, trivial⟩
    (fun m' hne hm' => absurd (Option.some.inj (hleader.symm.trans hm')).symm hne)
    (fun m' k' _ _ hne hm' hat' => ?_)
    fun _ _ hne hm' ho => h.ne_of_leads hleads hne hm' (TsoHistory.leads_storing.mp ho).symm
  · rcases (TsoHistory.saved_raise hk).mp hc with ⟨rfl, -⟩ | ⟨-, hc⟩
    · omega
    · have := h.ordered.saved_le hat hj hc
      omega
  · rcases (TsoHistory.saved_raise hk).mp hc with ⟨-, rfl⟩ | ⟨-, hc⟩
    · exact Int.le_refl _
    · exact h.le_of_last hlast hat hb j c hc
  · rw [hlast]
    exact (length_set ..).symm
  · have hne := h.ne_of_leads hleads hne hm'
    exact (hat'.raise_of_ne hne hk).store_of_ne hne

def started (s : TsoCluster μ) (m : μ) (next save : Int64) : TsoCluster μ where
  toTsoHistory := (s.start save).store next s.saved.length
  timestamp := some save
  leader := s.leader
  members := Function.update s.members m
    (s.storing { s.members m with lastSavedTime := .unix save } s.saved.length)

theorem Inv.started (h : s.Inv saveInterval) (hleader : s.leader = some m)
    (habove : ∀ k b, s.Saved k b → b.toInt + 1000000 ≤ next.toInt)
    (hsave : save.toInt = next.toInt + saveInterval.toInt) (hguard : 1000000 < saveInterval.toInt) :
    (s.started m next save).Inv saveInterval := by
  have hsaved : (s.start save).Saved s.saved.length save :=
    TsoHistory.saved_start.mpr (.inr ⟨rfl, rfl⟩)
  have hnone : ∀ a ∈ s.objects, a.leadership ≠ s.saved.length := by
    intro a ha
    obtain ⟨b, hb, -⟩ := h.ordered.object_lt a ha
    exact hb.lt_length.ne
  have hother : ∀ m' k, (s.members m').Leads k → k ≠ s.saved.length := by
    intro m' k hm'
    obtain ⟨-, x, b, hat, -⟩ := (h.member m').leading hm'
    exact hat.saved.lt_length.ne
  refine h.change rfl (h.ordered.start.store hsaved (by omega) (fun j c hj hc => ?_)
    fun a ha hk => absurd hk (hnone a ha)) (fun j c hc => ⟨save, rfl, ?_⟩)
    ⟨fun _ => by simp [TsoCluster.started, TsoHistory.start, TsoHistory.store], next, save,
      TsoHistory.leadsAt_store rfl hsaved fun a ha hk => absurd hk (hnone a ha), by omega,
      trivial⟩ (fun m' hne hm' => absurd (Option.some.inj (hleader.symm.trans hm')).symm hne)
    (fun m' k' x' b' hne hm' hat' => hat'.start.store_of_ne (hother m' k' hm'))
    fun m' k' hne hm' ho => hother m' k' hm' (TsoHistory.leads_storing.mp ho).symm
  · rcases TsoHistory.saved_start.mp hc with hc | ⟨rfl, -⟩
    · exact habove j c hc
    · omega
  · rcases TsoHistory.saved_start.mp hc with hc | ⟨-, rfl⟩
    · have := habove j c hc
      omega
    · exact Int.le_refl _

theorem toInt_add_of_lt {x y : Int64} (h0 : 0 ≤ y.toInt) (h : x.toInt + y.toInt < 2^63) :
    (x + y).toInt = x.toInt + y.toInt := by
  have hx := x.le_toInt
  rw [Int64.toInt_add]
  exact int64_of_lt (by omega) h

theorem toInt_sub_cases {x y : Int64} (h : y.toInt - x.toInt ≤ 2^63) :
    x.toInt - y.toInt < 2^63 ∧ (x - y).toInt = x.toInt - y.toInt ∨
      2^63 ≤ x.toInt - y.toInt ∧ (x - y).toInt < 0 := by
  have hx := x.toInt_lt
  have hy := y.le_toInt
  rw [Int64.toInt_sub]
  by_cases hlt : x.toInt - y.toInt < 2^63
  · exact .inl ⟨hlt, int64_of_lt (by omega) hlt⟩
  · refine .inr ⟨by omega, ?_⟩
    rw [Int.bmod_def]
    split_ifs <;> omega

theorem toInt_updateTimestampGuard : updateTimestampGuard.toInt = 1000000 := by decide

theorem le_syncNext {last : Time} {now : Int64} (hguard : 1000000 < saveInterval.toInt)
    (h : Fits saveInterval last.unixNano now) :
    (syncNext last now).toInt + saveInterval.toInt < 2^63 ∧
      last.unixNano.toInt + 1000000 ≤ (syncNext last now).toInt := by
  obtain ⟨hnow, hlast, hlag⟩ := h
  have hsub := toInt_sub_cases hlag
  by_cases hlt : Time.subTimeByWallClock (.unix now) last < updateTimestampGuard
  · have hfits : last.unixNano.toInt + updateTimestampGuard.toInt < 2^63 := by
      rw [toInt_updateTimestampGuard]
      omega
    rw [syncNext, if_pos hlt, toInt_add_of_lt (by decide) hfits, toInt_updateTimestampGuard]
    omega
  · rw [Int64.lt_iff_toInt_lt, toInt_updateTimestampGuard, Time.subTimeByWallClock] at hlt
    rw [syncNext, if_neg (by rwa [Int64.lt_iff_toInt_lt, toInt_updateTimestampGuard])]
    simp only [Time.unixNano] at hlt hsub ⊢
    omega

theorem updateTimestampGuard_lt_iff {x now : Int64} :
    updateTimestampGuard < Time.subTimeByWallClock (.unix now) (.unix x) ↔
      1000000 < (now - x).toInt := by
  rw [Int64.lt_iff_toInt_lt, toInt_updateTimestampGuard]
  rfl

theorem of_updateNext {x prevLogical now : Int64} (hguard : 1000000 < saveInterval.toInt)
    (h : Fits saveInterval x now) (hnext : updateNext x prevLogical now = some next) :
    next.toInt + saveInterval.toInt < 2^63 ∧ next.toInt - x.toInt < 2^63 ∧
      (x.toInt + 1000000 < now.toInt ∧ next.toInt = now.toInt ∨
        (now.toInt ≤ x.toInt + 1000000 ∨ 2^63 ≤ now.toInt - x.toInt) ∧
          maxLogical / 2 < prevLogical ∧ next.toInt = x.toInt + 1000000) := by
  obtain ⟨hnow, hlast, hlag⟩ := h
  have hsub := toInt_sub_cases hlag
  rw [updateNext] at hnext
  by_cases hlt : updateTimestampGuard < Time.subTimeByWallClock (.unix now) (.unix x)
  · rw [if_pos hlt] at hnext
    obtain rfl := Option.some.inj hnext
    rw [updateTimestampGuard_lt_iff] at hlt
    exact ⟨hnow, by omega, .inl ⟨by omega, rfl⟩⟩
  · rw [if_neg hlt] at hnext
    split_ifs at hnext with hhigh
    obtain rfl := Option.some.inj hnext
    rw [updateTimestampGuard_lt_iff] at hlt
    have hadd : (x + millisecond).toInt = x.toInt + 1000000 :=
      toInt_add_of_lt (by decide) (by change _ + 1000000 < _; omega)
    exact ⟨by omega, by omega, .inr ⟨by omega, hhigh, hadd⟩⟩

theorem of_updateNext_none {x prevLogical now : Int64} (h : Fits saveInterval x now)
    (hnext : updateNext x prevLogical now = none) :
    (now.toInt ≤ x.toInt + 1000000 ∨ 2^63 ≤ now.toInt - x.toInt) ∧
      ¬ maxLogical / 2 < prevLogical := by
  obtain ⟨hnow, hlast, hlag⟩ := h
  have hsub := toInt_sub_cases hlag
  rw [updateNext] at hnext
  split_ifs at hnext with hlt hhigh
  rw [updateTimestampGuard_lt_iff] at hlt
  exact ⟨by omega, hhigh⟩

def CrossesZero (s : TsoCluster μ) (logical : ℕ → Int64) : OracleEvent μ → Prop
  | .update m now => ∃ c ∈ s.current m, LastBefore c.2.physical ∧ now.toInt < 1000000 ∧
      (c.2.physical.toInt + 1000000 < now.toInt ∨ maxLogical / 2 < logical c.1) ∧
      now.toInt + 1000000 < (s.members m).lastSavedTime.unixNano.toInt ∧
      c.2.physical.toInt + 2000000 < (s.members m).lastSavedTime.unixNano.toInt
  | .updateCommit m outcome => s.leader = some m ∧ outcome = .answered ∧
      (∃ c ∈ s.current m, LastBefore c.2.physical) ∧
      ∃ next ∈ (s.members m).phase.next, next.toInt < 1000000
  | _ => False

instance (s : TsoCluster μ) (logical : ℕ → Int64) :
    (e : OracleEvent μ) → Decidable (s.CrossesZero logical e)
  | .update m now => by
    unfold CrossesZero LastBefore
    infer_instance
  | .updateCommit m outcome => by
    unfold CrossesZero LastBefore
    infer_instance
  | .campaign _ | .expire | .syncLoad .. | .syncCommit .. | .resign _ | .restart _ => isFalse id

/-- What an event does to the objects, and whether it crosses zero. -/
inductive Effect (s s' : TsoCluster μ) (crosses : Prop) : Prop
  | quiet (hobjects : s'.objects = s.objects) (hcross : ¬ crosses)
  | updated {o : TimestampOracle} {k : ℕ} {x b next : Int64} (hat : s.LeadsAt o k x b)
      (hx : x.toInt + 1000000 ≤ next.toInt) (hobjects : s'.objects = s.objects ++ [⟨next, k⟩])
      (hcross : crosses ↔ LastBefore x ∧ next.toInt < 1000000)
  | started {next : Int64} (hobjects : s'.objects = s.objects ++ [⟨next, s.saved.length⟩])
      (hcross : ¬ crosses)

theorem saveTimestamp_cases (s : TsoCluster μ) (m : μ) (save : Int64) (outcome : CommitOutcome) :
    (¬ (s.leader = some m ∧ outcome = .answered) ∧ s.saveTimestamp m save outcome = (s, false)) ∨
      s.leader = some m ∧ (outcome ≠ .answered ∧
          s.saveTimestamp m save outcome = ({ s with timestamp := some save }, false) ∨
        outcome = .answered ∧ s.saveTimestamp m save outcome =
          ({ s with timestamp := some save }.setMember m
            { s.members m with lastSavedTime := .unix save }, true)) := by
  unfold saveTimestamp
  by_cases hput : s.leader = some m ∧ outcome.Applies
  · rw [if_pos hput]
    by_cases hok : outcome = .answered
    · exact .inr ⟨hput.1, .inr ⟨hok, if_pos hok⟩⟩
    · exact .inr ⟨hput.1, .inl ⟨hok, if_neg hok⟩⟩
  · rw [if_neg hput]
    refine .inl ⟨fun h => hput ⟨h.1, ?_⟩, rfl⟩
    rw [h.2]
    exact CommitOutcome.applies_answered

theorem Inv.syncCommit (h : s.Inv saveInterval) (hguard : 1000000 < saveInterval.toInt)
    (hphase : (s.members m).phase = .syncing next) (outcome : CommitOutcome) :
    (s.syncCommit saveInterval m next outcome).Inv saveInterval ∧
      s.Effect (s.syncCommit saveInterval m next outcome) False := by
  have hmember := h.member m
  rw [MemberInv, hphase] at hmember
  rw [TsoCluster.syncCommit]
  rcases s.saveTimestamp_cases m (next + saveInterval) outcome with
    ⟨-, heq⟩ | ⟨hleader, ⟨-, heq⟩ | ⟨-, heq⟩⟩
  · rw [heq]
    exact ⟨h.setIdle rfl, .quiet rfl id⟩
  · obtain ⟨hfits, habove⟩ := hmember hleader
    have hsave := toInt_add_of_lt (by omega) hfits
    have hle : ∀ k b, s.Saved k b → b.toInt ≤ (next + saveInterval).toInt := by
      intro k b hb
      have := habove k b hb
      omega
    rw [heq]
    exact ⟨(h.setTimestamp hle).setIdle rfl, .quiet rfl id⟩
  · obtain ⟨hfits, habove⟩ := hmember hleader
    have hstarted := h.started hleader habove (toInt_add_of_lt (by omega) hfits) hguard
    rw [heq]
    refine ⟨?_, .started rfl id⟩
    simpa [TsoCluster.store, TsoCluster.setMember, TsoCluster.started, TsoHistory.start,
      TsoHistory.store, TsoHistory.storing] using hstarted

theorem Inv.updateCommit (h : s.Inv saveInterval) (hguard : 1000000 < saveInterval.toInt)
    (hphase : (s.members m).phase = .updating k next) (outcome : CommitOutcome)
    (logical : ℕ → Int64) :
    (s.updateCommit saveInterval m k next outcome).Inv saveInterval ∧
      s.Effect (s.updateCommit saveInterval m k next outcome)
        (s.CrossesZero logical (.updateCommit m outcome)) := by
  have hleads : (s.members m).Leads k := .inr ⟨next, hphase⟩
  have hmember := h.member m
  rw [MemberInv, hphase] at hmember
  obtain ⟨hlast, x, b, hat, hwindow, hfits, hx⟩ := hmember
  have hsave := toInt_add_of_lt (by omega) hfits
  have hb : b.toInt ≤ (next + saveInterval).toInt := by omega
  rw [TsoCluster.updateCommit]
  rcases s.saveTimestamp_cases m (next + saveInterval) outcome with
    ⟨hno, heq⟩ | ⟨hleader, ⟨hno, heq⟩ | ⟨rfl, heq⟩⟩
  · rw [heq]
    exact ⟨h.setLeading ⟨hlast, x, b, ⟨hat.1, hat.2, hat.3, hat.4⟩, hwindow, trivial⟩ (.inl rfl)
      hleads, .quiet rfl fun hcross => hno ⟨hcross.1, hcross.2.1⟩⟩
  · rw [heq]
    exact ⟨(h.setTimestamp (h.le_of_last (hlast hleader) hat hb)).setLeading
      ⟨hlast, x, b, ⟨hat.1, hat.2, hat.3, hat.4⟩, hwindow, trivial⟩ (.inl rfl) hleads,
      .quiet rfl fun hcross => hno hcross.2.1⟩
  · have hraised := h.raised hleader hleads (hlast hleader) hat hx hb hsave hguard
    rw [heq]
    refine ⟨?_, .updated hat hx rfl ?_⟩
    · simpa [TsoCluster.store, TsoCluster.setMember, TsoCluster.raised, TsoHistory.raise,
        TsoHistory.store, TsoHistory.storing] using hraised
    · obtain ⟨ptr, hcurrent⟩ := current_of_leadsAt hat
      simp [CrossesZero, hleader, hcurrent, hphase, TsoPhase.next]

theorem Inv.update (h : s.Inv saveInterval) (hguard : 1000000 < saveInterval.toInt)
    (hphase : (s.members m).phase = .leading k) {ptr : ℕ} {prev : AtomicObject}
    (hcurrent : s.current m = some (ptr, prev)) (logical : ℕ → Int64) {now : Int64}
    (hfits : Fits saveInterval prev.physical now) :
    (s.update m k prev.physical (logical ptr) now).Inv saveInterval ∧
      s.Effect (s.update m k prev.physical (logical ptr) now)
        (s.CrossesZero logical (.update m now)) := by
  have hmember := h.member m
  rw [MemberInv, hphase] at hmember
  obtain ⟨hlast, x, b, hat, hwindow, -⟩ := hmember
  obtain ⟨ptr', hcurrent'⟩ := current_of_leadsAt hat
  obtain ⟨rfl, rfl⟩ : ptr' = ptr ∧ (⟨x, k⟩ : AtomicObject) = prev := by
    simpa using hcurrent'.symm.trans hcurrent
  have hcross : s.CrossesZero logical (.update m now) ↔
      LastBefore x ∧ now.toInt < 1000000 ∧
      (x.toInt + 1000000 < now.toInt ∨ maxLogical / 2 < logical ptr') ∧
      now.toInt + 1000000 < b.toInt ∧ x.toInt + 2000000 < b.toInt := by
    simp [CrossesZero, hcurrent, hat.lastSaved, Time.unixNano]
  have hlt := h.ordered.lt_of_leadsAt hat
  have hnow := hfits.1
  dsimp only at hfits
  rw [hcross]
  unfold TsoCluster.update
  cases hnext : updateNext x (logical ptr') now with
  | none =>
    refine ⟨h, .quiet rfl ?_⟩
    obtain ⟨hsmall, hlow⟩ := of_updateNext_none hfits hnext
    rintro ⟨⟨hx, hx'⟩, -, hnow | hhigh, -⟩
    · omega
    · exact hlow hhigh
  | some next =>
    obtain ⟨hrange, hdiff, hcases⟩ := of_updateNext hguard hfits hnext
    have hx : x.toInt + 1000000 ≤ next.toInt := by omega
    have hsub : (b - next).toInt = b.toInt - next.toInt := by
      rw [Int64.toInt_sub]
      exact int64_of_lt (by omega) (by have := saveInterval.toInt_lt; omega)
    have hiff : Time.subTimeByWallClock (s.members m).lastSavedTime (.unix next) ≤
        updateTimestampGuard ↔ b.toInt - next.toInt ≤ 1000000 := by
      rw [Int64.le_iff_toInt_le, toInt_updateTimestampGuard, hat.lastSaved, ← hsub]
      rfl
    dsimp only
    by_cases hsmall : b.toInt - next.toInt ≤ 1000000
    · rw [if_pos (hiff.mpr hsmall)]
      refine ⟨h.setLeading ⟨hlast, x, b, ⟨hat.1, hat.2, hat.3, hat.4⟩, hwindow, hrange, hx⟩
        (.inr ⟨next, rfl⟩) (.inl hphase), .quiet rfl ?_⟩
      rintro ⟨-, -, -, hnow, hx⟩
      omega
    · rw [if_neg (mt hiff.mp hsmall)]
      refine ⟨h.store hphase hlast hat hwindow hx (by omega), .updated hat hx rfl ?_⟩
      constructor
      · rintro ⟨hbefore, hnow, -⟩
        exact ⟨hbefore, by have := hbefore.2; omega⟩
      · rintro ⟨hbefore, hnext⟩
        obtain ⟨hx, hx'⟩ := hbefore
        refine ⟨⟨hx, hx'⟩, by omega, ?_, by omega, by omega⟩
        rcases hcases with ⟨hnow, -⟩ | ⟨-, hhigh, -⟩
        · exact .inl hnow
        · exact .inr hhigh

theorem Inv.syncLoad (h : s.Inv saveInterval) (hguard : 1000000 < saveInterval.toInt) {now : Int64}
    (hfits : Fits saveInterval s.loadTimestamp.unixNano now) :
    (s.setPhase m (.syncing (syncNext s.loadTimestamp now))).Inv saveInterval := by
  obtain ⟨hrange, hle⟩ := le_syncNext hguard hfits
  refine h.setMember (fun _ => ⟨hrange, fun k b hb => ?_⟩) (by simp [TimestampOracle.Leads])
  obtain ⟨p, hp, hlast⟩ := h.saved_le k b hb
  simp only [loadTimestamp, hp, Time.unixNano] at hle ⊢
  omega

theorem Inv.step (h : s.Inv saveInterval) (hguard : 1000000 < saveInterval.toInt)
    {logical : ℕ → Int64} {e : OracleEvent μ} (hstep : s.step saveInterval logical e = some s')
    (hrange : s.InRange saveInterval e) :
    s'.Inv saveInterval ∧ s.Effect s' (s.CrossesZero logical e) := by
  cases e with
  | campaign m =>
    simp only [TsoCluster.step] at hstep
    split_ifs at hstep with hidle
    obtain rfl := Option.some.inj hstep
    have hleader : Inv saveInterval { s with leader := some m } := by
      refine h.setLeader fun m' hm' => ?_
      rw [← Option.some.inj hm']
      exact hidle.2
    exact ⟨hleader.setMember trivial (by simp [TimestampOracle.Leads]), .quiet rfl id⟩
  | expire =>
    obtain rfl := Option.some.inj hstep
    exact ⟨h.setLeader (by simp), .quiet rfl id⟩
  | syncLoad m now err =>
    simp only [TsoCluster.step] at hstep
    split_ifs at hstep with _ herr
    · obtain rfl := Option.some.inj hstep
      exact ⟨h.setIdle rfl, .quiet rfl id⟩
    · obtain rfl := Option.some.inj hstep
      exact ⟨h.syncLoad hguard (hrange (eq_false_of_ne_true herr)), .quiet rfl id⟩
  | syncCommit m outcome =>
    simp only [TsoCluster.step] at hstep
    split at hstep
    · obtain rfl := Option.some.inj hstep
      exact h.syncCommit hguard ‹_› outcome
    · cases hstep
  | update m now =>
    simp only [TsoCluster.step] at hstep
    split at hstep
    · rename_i k hphase
      obtain ⟨⟨ptr, prev⟩, hcurrent, hstep⟩ := Option.bind_eq_some_iff.mp hstep
      have hfits : Fits saveInterval prev.physical now := hrange (ptr, prev) hcurrent
      obtain rfl := Option.some.inj hstep
      exact h.update hguard hphase hcurrent logical hfits
    · cases hstep
  | updateCommit m outcome =>
    simp only [TsoCluster.step] at hstep
    split at hstep
    · obtain rfl := Option.some.inj hstep
      exact h.updateCommit hguard ‹_› outcome logical
    · cases hstep
  | resign m =>
    simp only [TsoCluster.step] at hstep
    split at hstep
    · obtain rfl := Option.some.inj hstep
      exact ⟨h.setIdle rfl, .quiet rfl id⟩
    · cases hstep
  | restart m =>
    obtain rfl := Option.some.inj hstep
    exact ⟨h.setIdle rfl, .quiet rfl id⟩

end TsoCluster

end TinyKV
