import RolodexDns.RecordStores

/-! The zones that the stored names stand for, kept in memory and derived anew at a restart. A zone is derived from
the last two labels of a name, and is dropped when nothing is left at it or beneath it; the two agree unless the
name is a label of its own or ends in more than one dot. -/
namespace RolodexDns.ManagedZones
open StoredRecords SharedStores RecordStores List

section
variable (toLowercase : Text → Text) (s : RecordStore)

inductive RecordCall where
  | addRecord (record : DnsRecord)
  | removeRecords (name : Text) (kind : Option RecordKind) (value : Text)

def apply : RecordCall → RecordStore
  | .addRecord record => ((recordStore toLowercase).runAlone (addRecord toLowercase record) s).2
  | .removeRecords name kind value =>
      ((recordStore toLowercase).runAlone (removeRecords toLowercase name kind value) s).2

/-- The zones are those that a restart would derive. -/
def Coherent : Prop := ∀ zone,zone∈s.managedZones ↔ zone∈(s.restart toLowercase).managedZones

def Derived (rows : List DnsRecord) (zone : Text) : Prop := ∃ r∈rows,extractZoneFromName toLowercase r.name=some zone

/-- A removal leaves records at a zone or beneath it exactly if it leaves some that stand for the zone. -/
def Safe : RecordCall → Prop
  | .addRecord _ => True
  | .removeRecords name kind value =>
    let normalized := normalizeName toLowercase name
    let left := s.rows.filter fun r => !isDeleted normalized kind value r
    (∃ r∈s.rows,isDeleted normalized kind value r=true) →
      ∀ zone,extractZoneFromName toLowercase normalized=some zone →
        (zoneHasRecords left zone=true ↔ Derived toLowercase left zone)

end

section
variable {toLowercase : Text → Text} {s : RecordStore}

theorem mem_managedZones_restart {zone : Text} :
    zone∈(s.restart toLowercase).managedZones ↔ Derived toLowercase s.rows zone := by
  unfold RecordStore.restart Derived
  induction s.rows using reverseRecOn with
  | nil => simp
  | append_singleton rows r ih =>
    rw [foldl_append,foldl_cons,foldl_nil]
    simp only [mem_append,mem_singleton,or_and_right,exists_or,exists_eq_left,← ih]
    cases extractZoneFromName toLowercase r.name with
    | none => simp
    | some z => simp [mem_insertZone,eq_comm]

theorem coherent_iff : Coherent toLowercase s ↔ ∀ zone,zone∈s.managedZones ↔ Derived toLowercase s.rows zone :=
  forall_congr' fun _ => iff_congr Iff.rfl mem_managedZones_restart

theorem runAlone_addRecord (toLowercase : Text → Text) (s : RecordStore) (record : DnsRecord) :
    (apply toLowercase s (.addRecord record)).rows=(s.exec toLowercase (.insertRow record)).2.rows ∧
      (apply toLowercase s (.addRecord record)).managedZones =
        (s.exec toLowercase (.insertRow record)).2.managedZones := by
  simp only [apply,addRecord,Store.runAlone_perform]
  split <;> exact ⟨rfl,rfl⟩

theorem runAlone_removeRecords (toLowercase : Text → Text) (s : RecordStore) (name : Text) (kind : Option RecordKind)
    (value : Text) :
    (apply toLowercase s (.removeRecords name kind value)).rows =
      (s.exec toLowercase (.deleteRows name kind value)).2.rows ∧
      (apply toLowercase s (.removeRecords name kind value)).managedZones =
        (s.exec toLowercase (.deleteRows name kind value)).2.managedZones := by
  simp only [apply,removeRecords,Store.runAlone_perform]
  split <;> exact ⟨rfl,rfl⟩

theorem coherent_addRecord (h : Coherent toLowercase s) (record : DnsRecord) :
    Coherent toLowercase (apply toLowercase s (.addRecord record)) := by
  obtain ⟨hr,hz⟩ := runAlone_addRecord toLowercase s record
  rw [coherent_iff] at h ⊢
  intro zone
  rw [hr,hz]
  simp only [RecordStore.exec,Derived,mem_append,mem_singleton,or_and_right,exists_or,exists_eq_left]
  rw [← Derived,← h zone]
  cases extractZoneFromName toLowercase (normalizeName toLowercase record.name) with
  | none => simp
  | some z => simp [mem_insertZone,eq_comm]

theorem name_of_isDeleted {normalized : Text} {kind : Option RecordKind} {value : Text} {r : DnsRecord}
    (h : isDeleted normalized kind value r=true) : r.name=normalized := by
  simp only [isDeleted,Bool.and_eq_true,decide_eq_true_eq] at h
  exact h.1.1

/-- A removal takes away only rows of one name, and so can affect one zone at most. -/
theorem coherent_removeRecords_iff (h : Coherent toLowercase s) (name : Text) (kind : Option RecordKind)
    (value : Text) :
    Coherent toLowercase (apply toLowercase s (.removeRecords name kind value)) ↔
      Safe toLowercase s (.removeRecords name kind value) := by
  obtain ⟨hro,hzn⟩ := runAlone_removeRecords toLowercase s name kind value
  rw [coherent_iff] at h ⊢
  rw [hro,hzn]
  unfold Safe
  dsimp only [RecordStore.exec]
  generalize hn : normalizeName toLowercase name=normalized
  generalize hl : s.rows.filter (fun r => !isDeleted normalized kind value r)=left
  have hsu : ∀ zone,Derived toLowercase left zone → Derived toLowercase s.rows zone := by
    rintro zone ⟨r,hr,hzo⟩
    exact ⟨r,mem_of_mem_filter (hl ▸ hr),hzo⟩
  -- rows of other zones are not deleted
  have ho : ∀ zone,extractZoneFromName toLowercase normalized≠some zone → Derived toLowercase s.rows zone →
    Derived toLowercase left zone := by
    rintro zone hne ⟨r,hr,hzo⟩
    refine ⟨r,hl ▸ mem_filter.mpr ⟨hr,?_⟩,hzo⟩
    rw [Bool.not_eq_true',Bool.eq_false_iff]
    exact fun hd => hne (name_of_isDeleted hd ▸ hzo)
  cases hzo : extractZoneFromName toLowercase normalized with
  | none =>
    refine iff_of_true (fun zone => (h zone).trans ⟨ho zone (by simp [hzo]),hsu zone⟩) fun _ zone hs => nomatch hs
  | some z =>
    dsimp only
    by_cases hs : ∃ r∈s.rows,isDeleted normalized kind value r=true
    · -- the zone stood in the cache, and stays exactly if something is found at it or beneath it
      have hb : z∈s.managedZones := by
        obtain ⟨r,hr,hd⟩ := hs
        exact (h z).mpr ⟨r,hr,name_of_isDeleted hd ▸ hzo⟩
      have ha (zone : Text) : (zone∈if 0<s.rows.countP (isDeleted normalized kind value) ∧ zoneHasRecords left z=false
          then s.managedZones.filter (· ≠ z) else s.managedZones) ↔ zone∈s.managedZones ∧
            (zone=z → zoneHasRecords left z=true) := by
        cases hre : zoneHasRecords left z <;> simp [countP_pos_iff.mpr hs]
      constructor
      · intro hal _ zone hz
        cases hz
        rw [← hal z,ha z]
        exact ⟨fun hre => ⟨hb,fun _ => hre⟩,fun hk => hk.2 rfl⟩
      · intro hsa zone
        rw [ha zone]
        by_cases hz : zone=z
        · subst hz
          rw [← hsa hs zone rfl]
          exact ⟨fun hk => hk.2 rfl,fun hre => ⟨hb,fun _ => hre⟩⟩
        · rw [h zone,and_iff_left fun heq => absurd heq hz]
          exact ⟨ho zone (by rw [hzo]; exact fun heq => hz (Option.some.inj heq).symm),hsu zone⟩
    · have hsm : left=s.rows := by
        rw [← hl,filter_eq_self]
        exact fun r hr => by simpa using fun hd => hs ⟨r,hr,hd⟩
      refine iff_of_true (fun zone => ?_) fun hex => absurd hex hs
      rw [if_neg fun hbo => hs (countP_pos_iff.mp hbo.1),hsm]
      exact h zone

theorem coherent_apply_iff (h : Coherent toLowercase s) (call : RecordCall) :
    Coherent toLowercase (apply toLowercase s call) ↔ Safe toLowercase s call := by
  cases call with
  | addRecord record => exact iff_of_true (coherent_addRecord h record) trivial
  | removeRecords name kind value => exact coherent_removeRecords_iff h name kind value

/-- From a start on, the zones are what a restart would derive after every call exactly if every removal leaves
records at its zone or beneath it only along with some that stand for the zone. -/
theorem managed_zones_coherent_iff (toLowercase : Text → Text) (s : RecordStore) (calls : List RecordCall) :
    (∀ t∈states (apply toLowercase) (s.restart toLowercase) calls,Coherent toLowercase t) ↔
      Along (apply toLowercase) (Safe toLowercase) (s.restart toLowercase) calls :=
  forall_states_iff (fun _ call h => coherent_apply_iff h call) (fun _ => Iff.rfl) calls

/-- A name of one label loses its last record while there are records beneath it: its zone stays until the next
start. A name with two final dots stands for a zone that nothing is found beneath. -/
theorem managed_zones_incoherent :
    ¬ (∀ t∈states (apply (map Char.toLower)) (RecordStore.restart (map Char.toLower) ⟨[],[],[],[],[]⟩)
        [.addRecord ⟨"lab",.A,"10.0.0.1",300,0⟩,.addRecord ⟨"nas.lab",.A,"10.0.0.2",300,0⟩,
          .removeRecords "lab" none []], Coherent (map Char.toLower) t) ∧
      ¬ (∀ t∈states (apply (map Char.toLower)) (RecordStore.restart (map Char.toLower) ⟨[],[],[],[],[]⟩)
        [.addRecord ⟨"nas.lab",.A,"10.0.0.1",300,0⟩,.addRecord ⟨"nas.lab..",.A,"10.0.0.2",300,0⟩,
          .removeRecords "nas.lab" none []], Coherent (map Char.toLower) t) := by
  refine ⟨fun h => ?_,fun h => ?_⟩
  · have hl := h _ (.tail _ (.tail _ (.tail _ (.head _)))) "lab."
    exact absurd hl (by decide +kernel)
  · have hl := h _ (.tail _ (.tail _ (.tail _ (.head _)))) "nas.lab."
    exact absurd hl (by decide +kernel)

end

end RolodexDns.ManagedZones
