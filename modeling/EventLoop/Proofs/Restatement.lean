import EventLoop.Proofs.Respelling
import EventLoop.Settings.Text
import Mathlib.Logic.Relation
import Mathlib.Logic.ExistsUnique

/-! One configuration, written in many ways: as an object or as an array at each of its three
levels, with its members in any order, with members that mean nothing, without those that say what
holds anyway, and with blanks between any two tokens. Main statement: `respelled`. -/
namespace EventLoop

open Json

theorem ReactorSettings.lawful : Lawful ReactorSettings.fields where
  names := by decide
  proper := by
    simp only [fields,List.forall_mem_cons]
    exact ⟨proper_fieldOf proper_natural,proper_fieldOf proper_natural,proper_fieldOf proper_text,
      nofun⟩
  commute := by
    simp only [fields,List.mem_cons,List.not_mem_nil,or_false]
    rintro f (rfl | rfl | rfl) g (rfl | rfl | rfl) hne t u x y hx hy
    all_goals first
      | exact absurd rfl hne
      | exact commute_fieldOf hx hy fun _ _ _ => rfl

theorem LookupSettings.lawful : Lawful LookupSettings.fields where
  names := by decide
  proper := by
    simp only [fields,List.forall_mem_cons]
    exact ⟨proper_fieldOf proper_choice,proper_fieldOf proper_boolean,
      proper_fieldOf (proper_optional proper_natural),nofun⟩
  commute := by
    simp only [fields,List.mem_cons,List.not_mem_nil,or_false]
    rintro f (rfl | rfl | rfl) g (rfl | rfl | rfl) hne t u x y hx hy
    all_goals first
      | exact absurd rfl hne
      | exact commute_fieldOf hx hy fun _ _ _ => rfl

namespace Settings

theorem lawful : Lawful fields where
  names := by decide
  proper := by
    simp only [fields,List.forall_mem_cons]
    exact ⟨proper_fieldOf (proper_record ReactorSettings.lawful.proper),
      proper_fieldOf (proper_record LookupSettings.lawful.proper),nofun⟩
  commute := by
    simp only [fields,List.mem_cons,List.not_mem_nil,or_false]
    rintro f (rfl | rfl) g (rfl | rfl) hne t u x y hx hy
    all_goals first
      | exact absurd rfl hne
      | exact commute_fieldOf hx hy fun _ _ _ => rfl

/-- A part of the settings is written as another tree: the whole, or the value of a section. -/
inductive Part (whole reactor lookup : Tree → Tree → Prop) : Tree → Tree → Prop
  | whole {u v : Tree} (h : whole u v) : Part whole reactor lookup u v
  | reactor {u v : Tree} {f : RecordField Settings} (hf : f ∈ fields) (hn : f.name = "reactor")
      (h : Within fields f reactor u v) : Part whole reactor lookup u v
  | lookup {u v : Tree} {f : RecordField Settings} (hf : f ∈ fields) (hn : f.name = "resolver")
      (h : Within fields f lookup u v) : Part whole reactor lookup u v

def Respelling : Tree → Tree → Prop :=
  Part (Change fields {}) (Change ReactorSettings.fields {}) (Change LookupSettings.fields {})

def Doubling : Tree → Tree → Prop :=
  Part (Doubled fields) (Doubled ReactorSettings.fields) (Doubled LookupSettings.fields)

theorem Respelling.comes {u v : Tree} {s : Settings} (h : Respelling u v) (hg : u.Grammatical)
    (hu : Comes fields {} u (.ok s)) : v.Grammatical ∧ Comes fields {} v (.ok s) := by
  cases h with
  | whole h => exact h.comes lawful hg hu
  | @reactor f hf hn h =>
    obtain rfl := lawful.eq_of_name hf (List.mem_cons_self) hn
    exact h.comes lawful hf (fun t w set h => h.takes ReactorSettings.lawful) hg hu
  | @lookup f hf hn h =>
    obtain rfl := lawful.eq_of_name hf (List.mem_cons_of_mem _ List.mem_cons_self) hn
    exact h.comes lawful hf (fun t w set h => h.takes LookupSettings.lawful) hg hu

theorem Doubling.comes {u v : Tree} {s : Settings} (h : Doubling u v) (hg : u.Grammatical)
    (hu : Comes fields {} u (.ok s)) : v.Grammatical ∧ Comes fields {} v (.error .content) := by
  have hr := readable_of_comes lawful hg hu
  cases h with
  | whole h => exact h.comes lawful hg hu
  | @reactor f hf hn h =>
    obtain rfl := lawful.eq_of_name hf (List.mem_cons_self) hn
    exact h.rejects lawful hf (fun t w set h => h.rejects ReactorSettings.lawful) hg hr
  | @lookup f hf hn h =>
    obtain rfl := lawful.eq_of_name hf (List.mem_cons_of_mem _ List.mem_cons_self) hn
    exact h.rejects lawful hf (fun t w set h => h.rejects LookupSettings.lawful) hg hr

theorem ofText_of_comes {d : Tree} {written : String} {s : Settings}
    (hc : Comes fields {} d (.ok s)) (hd : d.Spells written) (hv : s.Valid) :
    ofText written = .ok s := by
  have hr : read written.toList = .ok s := whole_of_comes hc hd
  have hv : s.check = .ok () := hv
  simp [ofText,hr,hv]

theorem ofText_of_fault {d : Tree} {written : String} {fault : Json.Fault}
    (hc : Comes fields {} d (.error fault)) (hd : d.Spells written) :
    ofText written = .error (.unreadable fault) := by
  have hr : read written.toList = .error fault := whole_of_comes hc hd
  simp [ofText,hr]

theorem comes_of_ofText {text : String} {s : Settings} (h : ofText text = .ok s) :
    ∃ d : Tree, d.Grammatical ∧ d.Spells text ∧ Comes fields {} d (.ok s) := by
  unfold ofText at h
  split at h
  · cases h
  next t hr =>
  split at h
  · cases h
  · obtain rfl : t = s := Except.ok.inj h
    exact of_whole lawful.proper hr

theorem comes_of_respelling {u v : Tree} {s : Settings}
    (h : Relation.ReflTransGen Respelling u v) (hg : u.Grammatical)
    (hu : Comes fields {} u (.ok s)) : v.Grammatical ∧ Comes fields {} v (.ok s) := by
  induction h with
  | refl => exact ⟨hg,hu⟩
  | tail _ h ih => exact h.comes ih.1 ih.2

/-- What holds of the ways to write settings anew. -/
structure Respelled (text : String) (s : Settings) : Prop where
  /-- The text is one tree. -/
  tree : ∃! d : Tree, d.Grammatical ∧ d.Spells text
  /-- After any changes, with any blanks, the settings are the same. -/
  same : ∀ (d d' : Tree) (written : String), d.Grammatical → d.Spells text →
    Relation.ReflTransGen Respelling d d' → d'.Spells written → ofText written = .ok s
  /-- If a field then stands there twice the text gives no settings. -/
  twice : ∀ (d d' e : Tree) (written : String), d.Grammatical → d.Spells text →
    Relation.ReflTransGen Respelling d d' → Doubling d' e → e.Spells written →
      ofText written = .error (.unreadable .content)

theorem respelled {text : String} {s : Settings} (h : ofText text = .ok s) :
    Respelled text s := by
  obtain ⟨t,hg,ht,hc⟩ := comes_of_ofText h
  have hone {d : Tree} (hd : d.Grammatical) (hs : d.Spells text) : d = t := hs.unique hd hg ht
  refine ⟨⟨t,⟨hg,ht⟩,fun d hd => hone hd.1 hd.2⟩,?_,?_⟩
  · intro d d' written hd hs hr hw
    obtain rfl := hone hd hs
    exact ofText_of_comes (comes_of_respelling hr hg hc).2 hw (valid_of_ofText h)
  · intro d d' e written hd hs hr he hw
    obtain rfl := hone hd hs
    obtain ⟨hg',hc'⟩ := comes_of_respelling hr hg hc
    exact ofText_of_fault (he.comes hg' hc').2 hw

/-- A member that is no field, a section as an array that is cut, and a section as an object. -/
def sample : String :=
  "\x7b\"x\":[\x7b\x7d],\"resolver\":[\"hickory\"],\"reactor\":\x7b\"worker_threads\":2\x7d\x7d"

theorem respelled_sample :
    ofText sample = .ok { reactor := { workers := 2 }, lookup := { backend := .hickory } } ∧
      Respelled sample { reactor := { workers := 2 }, lookup := { backend := .hickory } } :=
  have h : ofText sample = .ok { reactor := { workers := 2 }, lookup := { backend := .hickory } } :=
    by decide
  ⟨h,respelled h⟩

end Settings
end EventLoop
