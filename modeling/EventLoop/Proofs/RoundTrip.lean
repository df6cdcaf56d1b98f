import EventLoop.Proofs.Spelling
import EventLoop.Proofs.Retention
import EventLoop.Settings.Text

/-! Settings that are written and read back. A record is read member by member, and what a text
must not do, name a field twice, the writer never does. -/
namespace EventLoop
namespace Json

variable {α : Type}

/-- How the members of an object fill the fields of a record one after the other. -/
inductive Fills {σ : Type} (fields : List (RecordField σ)) :
    List String → List (String × Value) → σ → σ → Prop
  | nil (seen : List String) (a : σ) : Fills fields seen [] a a
  | cons {seen : List String} {key : String} {v : Value} {ms : List (String × Value)} {a b : σ}
      {set : σ → σ} {f : RecordField σ} (hf : fields.find? (·.name = key) = some f)
      (hs : key ∉ seen) (hr : Reads f.read v.write set) (h : Fills fields (key :: seen) ms (set a) b) :
      Fills fields seen ((key, v) :: ms) a b

theorem reads_fieldOf {σ : Type} {name : String} {r : Reader α} {set : α → σ → σ} {cs : List Char}
    {a : α} (h : Reads r cs a) : Reads (fieldOf name r set).read cs (set a) := by
  intro rest hr
  simp [fieldOf,h rest hr,Except.map]

def writeMore (ms : List (String × Value)) : List Char :=
  ms.flatMap fun (k, v) => ',' :: (quote k ++ ':' :: v.write)

theorem writeMembers_cons (k : String) (v : Value) (ms : List (String × Value)) :
    writeMembers ((k, v) :: ms) = quote k ++ ':' :: (v.write ++ writeMore ms) := by
  induction ms generalizing k v with
  | nil => simp [writeMembers,writeMore]
  | cons m ms ih =>
    obtain ⟨l,w⟩ := m
    rw [writeMembers,ih]
    simp [writeMore]

theorem ends_writeMore (ms : List (String × Value)) (rest : List Char) :
    Ends (writeMore ms ++ '}' :: rest) := by
  cases ms with
  | nil => exact ends_brace rest
  | cons m ms => exact ends_comma _

theorem memberName_brace (first : Bool) (cs : List Char) :
    memberName first ('}' :: cs) = .ok (none, cs) := by
  simp [memberName,skipBlank_cons (show isBlank '}' = false by decide)]

theorem memberName_first (k : String) (cs : List Char) :
    memberName true (quote k ++ cs) = .ok (some k, cs) := by
  rw [quote,List.cons_append,memberName,skipBlank_cons (by decide)]
  simp [string_flatMap,Except.map]

theorem memberName_next (k : String) (cs : List Char) :
    memberName false (',' :: (quote k ++ cs)) = .ok (some k, cs) := by
  rw [quote,List.cons_append,memberName,skipBlank_cons (by decide)]
  simp [skipBlank_cons (show isBlank '"' = false by decide),string_flatMap,Except.map]

theorem colon_cons (cs : List Char) : colon (':' :: cs) = .ok cs := by
  simp [colon,skipBlank_cons (show isBlank ':' = false by decide)]

theorem members_cons {σ : Type} {fields : List (RecordField σ)} {f : RecordField σ} {key : String}
    {v : Value} {seen : List String} {a : σ} {set : σ → σ} {first : Bool} {cs rest : List Char}
    (hk : memberName first cs = .ok (some key, ':' :: (v.write ++ rest)))
    (hf : fields.find? (·.name = key) = some f) (hs : key ∉ seen) (hr : Reads f.read v.write set)
    (he : Ends rest) (n : Nat) : members fields (n + 1) first seen a cs =
      members fields n false (key :: seen) (set a) rest := by
  rw [members]
  simp only [hk,bind,Except.bind,hf,hs,if_false,colon_cons,hr rest he]

theorem members_writeMore {σ : Type} {fields : List (RecordField σ)} {seen : List String}
    {ms : List (String × Value)} {a b : σ} (h : Fills fields seen ms a b) (rest : List Char) {n : Nat}
    (hn : ms.length < n) :
    members fields n false seen a (writeMore ms ++ '}' :: rest) = .ok (b, rest) := by
  induction h generalizing n with
  | nil seen a =>
    obtain ⟨n,rfl⟩ := Nat.exists_eq_succ_of_ne_zero (Nat.ne_of_gt hn)
    simp [members,writeMore,memberName_brace,bind,Except.bind,pure,Except.pure]
  | @cons seen key v ms a b set f hf hs hr h ih =>
    obtain ⟨n,rfl⟩ := Nat.exists_eq_succ_of_ne_zero (Nat.ne_of_gt (Nat.zero_lt_of_lt hn))
    have hk : memberName false (writeMore ((key, v) :: ms) ++ '}' :: rest) =
        .ok (some key, ':' :: (v.write ++ (writeMore ms ++ '}' :: rest))) := by
      rw [← memberName_next]
      simp [writeMore]
    rw [members_cons hk hf hs hr (ends_writeMore ms rest),ih (by simpa using hn)]

theorem length_le_writeMore (ms : List (String × Value)) : ms.length ≤ (writeMore ms).length := by
  induction ms with
  | nil => simp
  | cons m ms ih =>
    simp only [writeMore,List.flatMap_cons,List.length_append,List.length_cons] at ih ⊢
    omega

theorem reads_record {σ : Type} {fields : List (RecordField σ)} {ms : List (String × Value)}
    {a b : σ}
    (h : Fills fields [] ms a b) : Reads (record fields a) (Value.object ms).write b := by
  intro rest _
  rw [Value.write,List.cons_append,record,skipBlank_cons (by decide)]
  simp only [if_true,List.append_assoc,List.singleton_append]
  cases h with
  | nil => simp [members,writeMembers,memberName_brace,bind,Except.bind,pure,Except.pure]
  | @cons _ key v ms _ _ set f hf hs hr h =>
    have hl := length_le_writeMore ms
    have hk : memberName true (writeMembers ((key, v) :: ms) ++ '}' :: rest) =
        .ok (some key, ':' :: (v.write ++ (writeMore ms ++ '}' :: rest))) := by
      rw [← memberName_first,writeMembers_cons]
      simp
    rw [members_cons hk hf hs hr (ends_writeMore ms rest)]
    apply members_writeMore h
    simp only [writeMembers_cons,List.length_append,List.length_cons]
    omega

theorem whole_of_reads {r : Reader α} {cs : List Char} {a : α} (h : Reads r cs a) :
    whole r cs = .ok a := by
  have h := h [] ends_nil
  rw [List.append_nil] at h
  simp [whole,h,bind,Except.bind,pure,Except.pure,skipBlank]

end Json

open Json

theorem Backend.ofName?_name (b : Backend) : Backend.ofName? b.name = some b := by
  cases b <;> decide

theorem ReactorSettings.reads_toJson (r : ReactorSettings) :
    Reads (record ReactorSettings.fields {}) r.toJson.write r :=
  reads_record (.cons rfl (by decide) (reads_fieldOf (reads_natural r.workers))
    (.cons rfl (by decide) (reads_fieldOf (reads_natural r.blocking))
      (.cons rfl (by decide) (reads_fieldOf (reads_text r.threadName)) (.nil _ r))))

theorem LookupSettings.reads_timeout (t : Option UInt64) : Reads (optional natural)
    (match t with | some ms => count ms.toNat | none => Value.null).write t := by
  cases t with
  | none => exact reads_none natural
  | some ms =>
    obtain ⟨c,cs,hw,-,hb,-,hn⟩ := write_count_cons ms.toNat
    have h := reads_natural ms
    simp only [hw] at h ⊢
    exact reads_some hb hn h

theorem LookupSettings.reads_toJson (l : LookupSettings) :
    Reads (record LookupSettings.fields {}) l.toJson.write l :=
  reads_record (.cons rfl (by decide) (reads_fieldOf (reads_choice (Backend.ofName?_name l.backend)))
    (.cons rfl (by decide) (reads_fieldOf (reads_boolean l.preferV6))
      (.cons rfl (by decide) (reads_fieldOf (reads_timeout l.timeout)) (.nil _ l))))

namespace Settings

theorem reads_toJson (s : Settings) : Reads (record fields {}) s.toJson.write s :=
  reads_record (.cons rfl (by decide) (reads_fieldOf s.reactor.reads_toJson)
    (.cons rfl (by decide) (reads_fieldOf s.lookup.reads_toJson) (.nil _ s)))

theorem read_toJson (s : Settings) : read s.toJson.text.toList = .ok s := by
  rw [Value.text,String.toList_ofList]
  exact whole_of_reads s.reads_toJson

/-- What settings must not be, in the order in which it is looked for. -/
def rules : List ((Settings → Bool) × Fault) :=
  [(fun s => s.reactor.workers = 0, .reactor "worker_threads must be greater than 0"),
    (fun s => 256 < s.reactor.workers, .reactor "worker_threads must not exceed 256"),
    (fun s => s.reactor.blocking = 0, .reactor "max_blocking_threads must be greater than 0"),
    (fun s => s.reactor.threadName = "", .reactor "thread_name cannot be empty"),
    (fun s => s.lookup.timeout.any (· = 0), .lookup "timeout_ms must be greater than 0"),
    (fun s => s.lookup.timeout.any (60000 < ·), .lookup "timeout_ms should not exceed 60 seconds")]

theorem check_eq (s : Settings) : s.check =
    match rules.find? (·.1 s) with
    | none => .ok ()
    | some rule => .error rule.2 := by
  obtain ⟨⟨workers,blocking,threadName⟩,⟨backend,preferV6,timeout⟩⟩ := s
  simp only [check,ReactorSettings.check,LookupSettings.check,rules,List.find?_cons]
  by_cases hw : workers = 0
  · simp [hw]
  by_cases hm : 256 < workers
  · simp [hw,hm]
  by_cases hb : blocking = 0
  · simp [hw,hm,hb]
  by_cases hn : threadName = ""
  · simp [hw,hm,hb,hn]
  cases timeout with
  | none => simp [hw,hm,hb,hn]
  | some ms =>
    by_cases hz : ms = 0
    · simp [hw,hm,hb,hn,hz]
    by_cases hl : 60000 < ms <;> simp [hw,hm,hb,hn,hz,hl]

theorem ofText_toJson {s : Settings} (h : s.Valid) : ofText s.toJson.text = .ok s := by
  have h : s.check = .ok () := h
  rw [ofText,read_toJson]
  simp only [h]

theorem ofText_toJson_error {s : Settings} {fault : Fault} (h : s.check = .error fault) :
    ofText s.toJson.text = .error (.invalid fault) := by
  rw [ofText,read_toJson]
  simp only [h]

theorem accept_of_valid {s : Settings} (h : s.Valid) : s.accept = .ok s := by
  have h : s.check = .ok () := h
  simp only [accept,h]

/-- What is known of settings `s` that are written, of a text that is read, and of the loops that
are built of either. -/
structure Faithful (H : Type) (s : Settings) (text : String) : Prop where
  /-- The first rule that is broken decides. -/
  checked : s.check = match rules.find? (·.1 s) with
    | none => .ok ()
    | some rule => .error rule.2
  accepted : s.Valid → ofText s.toJson.text = .ok s ∧
    ∀ o ∈ [Origin.given s, Origin.text s.toJson.text], o.settle = .ok s
  refused : ∀ fault, s.check = .error fault → ofText s.toJson.text = .error (.invalid fault) ∧
    ∀ o ∈ [Origin.given s, Origin.text s.toJson.text], o.settle = .error (.invalid fault)
  valid : ∀ t, ofText text = .ok t → t.Valid
  /-- A loop has the settings it was built with as long as it is there. -/
  built : ∀ (o : Origin) (t : Settings) (xs ys : List (Move H)), o.settle = .ok t →
    t.Valid ∧ ((Machine.run (xs ++ .addLoop t :: ys)).shared.loops.get
      (Machine.run xs).shared.loops.size).settings = t

theorem settings_addLoop {H : Type} (t : Settings) (xs ys : List (Move H)) :
    ((Machine.run (xs ++ .addLoop t :: ys)).shared.loops.get
      (Machine.run xs).shared.loops.size).settings = t := by
  let m := (Machine.run xs).move (.addLoop t)
  have hm : m.shared.loops = (Machine.run xs).shared.loops.push { settings := t } := rfl
  have hkeep := (Machine.retains_after m ys).settings (Machine.run xs).shared.loops.size
    (by rw [hm,Table.size_push]; exact Nat.lt_succ_self _)
  rw [Machine.run_append,Machine.after_cons]
  exact hkeep.trans (by rw [hm,Table.get_push,if_pos rfl])

theorem faithful (H : Type) (s : Settings) (text : String) : Faithful H s text where
  checked := check_eq s
  accepted h := by
    have ht := ofText_toJson h
    have hg := settle_given (accept_of_valid h)
    refine ⟨ht,?_⟩
    simp [settle_text ht,hg]
  refused fault h := by
    have ht := ofText_toJson_error h
    have hg : (Origin.given s).settle = .error (.invalid fault) :=
      settle_given_error (by rw [accept,h])
    refine ⟨ht,?_⟩
    simp [settle_text_error ht,hg]
  valid _ := valid_of_ofText
  built _ t xs ys h := ⟨valid_of_settle h,settings_addLoop t xs ys⟩

end Settings
end EventLoop
