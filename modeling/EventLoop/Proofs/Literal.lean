import EventLoop.Proofs.Addressing
import EventLoop.Proofs.Arrangement

/-! Hosts that are addresses. A literal may stand in one pair of square brackets, and as no address
starts with a bracket it is clear which hosts have one. The text of an address is a literal of that
address, so that a lookup of it comes back to the address. Main statement: `literal_run`. -/
namespace EventLoop

def Denotes (host : String) (ip : Address) : Prop :=
  Address.parse? host.toList = some ip ∨
    ∃ cs, host.toList = '[' :: (cs ++ [']']) ∧ Address.parse? cs = some ip

def Address.bracketed (ip : Address) : String := String.ofList ('[' :: (ip.write ++ [']']))

theorem Address.parse?_bracket (cs : List Char) : Address.parse? ('[' :: cs) = none := by
  have hd : Numeral.isDigit 10 '[' = false ∧ Numeral.isDigit 16 '[' = false := by decide
  have h4 : V4.read ('[' :: cs) = none := V4.read_eq_none (by simp [Numeral.afterDigits,hd.1])
  have hg : V6.readGroup ('[' :: cs) = none := by simp [V6.readGroup,Numeral.digits,hd.2]
  have h6 : V6.read ('[' :: cs) = none := by
    simp [V6.read,V6.readGroups,V6.behindColon,h4,hg,V4.expect]
  simp [Address.parse?,Address.read,h4,h6]

namespace Query

theorem bare_bracket (cs : List Char) : bare ('[' :: (cs ++ [']'])) = cs := by
  simp [bare]

theorem bare_cases (cs : List Char) : bare cs = cs ∨ ∃ ds, cs = '[' :: (ds ++ [']']) := by
  unfold bare
  split
  · next rest =>
    split
    · next h => exact Or.inr (by simpa using List.getLast?_eq_some_iff.1 h)
    · exact Or.inl rfl
  · exact Or.inl rfl

theorem literal?_eq_some {host : String} {ip : Address} :
    literal? host = some ip ↔ Denotes host ip := by
  unfold literal? Denotes
  constructor
  · intro h
    obtain hb | ⟨ds,hb⟩ := bare_cases host.toList
    · exact Or.inl (hb ▸ h)
    · rw [hb,bare_bracket] at h
      exact Or.inr ⟨ds,hb,h⟩
  · rintro (h | ⟨cs,hc,h⟩)
    · obtain hb | ⟨ds,hb⟩ := bare_cases host.toList
      · rw [hb,h]
      · rw [hb,Address.parse?_bracket] at h
        cases h
    · rw [hc,bare_bracket,h]

theorem literal?_eq_none {host : String} : literal? host = none ↔ ∀ ip, ¬ Denotes host ip := by
  simp [← literal?_eq_some,Option.eq_none_iff_forall_ne_some]

theorem denotes_text (ip : Address) : Denotes ip.text ip :=
  Or.inl (by rw [Address.text,String.toList_ofList,Address.parse?_write])

theorem denotes_bracketed (ip : Address) : Denotes ip.bracketed ip :=
  Or.inr ⟨ip.write,by rw [Address.bracketed,String.toList_ofList],Address.parse?_write ip⟩

theorem ne_empty_of_denotes {host : String} {ip : Address} (h : Denotes host ip) : host ≠ "" := by
  rintro rfl
  obtain h | ⟨cs,hc,-⟩ := h
  · cases h
  · cases hc

def entry (q : Query) (port : UInt16) (ip : Address) : Entry := ⟨⟨ip, port⟩, q.host, q.service⟩

theorem arrange_singleton (v6 : Bool) (ip : Address) : arrange v6 [ip] = [ip] := by
  simp [arrange,distinct]

variable {settings : LookupSettings} {directory : Directory} {q : Query} {port : UInt16}
  {ip : Address}

theorem run_of_denotes (hp : Service.port? q.service q.hints.numericService = some port)
    (h : Denotes q.host ip) :
    q.run settings directory = ⟨[], some (0, .ok ⟨[q.entry port ip]⟩)⟩ := by
  have hh := ne_empty_of_denotes h
  have hl := literal?_eq_some.2 h
  simp [run,hp,ownAddresses?,hh,hl,Except.bind,entries,arrange_singleton,entry]

theorem denotes_of_unasked {d : Span} {found : Snapshot} (hh : q.host ≠ "")
    (ha : (q.run settings directory).asked = [])
    (ho : (q.run settings directory).outcome = some (d, .ok found)) :
    ∃ ip port, Denotes q.host ip ∧
      Service.port? q.service q.hints.numericService = some port ∧
      found.entries = [q.entry port ip] := by
  obtain ⟨port,ips,hp,hips,-⟩ := obtains_of_outcome ho
  cases hips with
  | everywhere he => exact absurd he hh
  | here he => exact absurd he hh
  | literal ip _ hl =>
    have hd := literal?_eq_some.1 hl
    rw [run_of_denotes hp hd] at ho
    obtain ⟨-,hf⟩ := Prod.mk.inj (Option.some.inj ho)
    exact ⟨ip,port,hd,hp,by rw [← Except.ok.inj hf]⟩
  | directory d ips _ hl hn => simp [run,hp,ownAddresses?,hh,hl,hn] at ha

/-- Between the texts of addresses and what is looked up for them nothing is lost. -/
structure Literal (settings : LookupSettings) (directory : Directory) : Prop where
  printed : ∀ ip : V6, ip.Written (Address.v6 ip).write
  /-- The text of an address, plain or in brackets, is looked up as that address. -/
  forth : ∀ (ip : Address) (service : String) (hints : Hints) (port : UInt16) (host : String),
    Service.port? service hints.numericService = some port →
    host = ip.text ∨ host = ip.bracketed →
    (Query.mk host service hints).run settings directory =
      ⟨[], some (0, .ok ⟨[⟨⟨ip, port⟩, host, service⟩]⟩)⟩
  /-- A host that is found without the directory is the text of the one address found, perhaps in
  brackets, and the text of that address is looked up as the same endpoint. -/
  back : ∀ (q : Query) (d : Span) (found : Snapshot), q.host ≠ "" →
    (q.run settings directory).asked = [] →
    (q.run settings directory).outcome = some (d, .ok found) →
    ∃ ip port, Denotes q.host ip ∧ found.entries = [⟨⟨ip, port⟩, q.host, q.service⟩] ∧
      Query.run settings directory { q with host := ip.text } =
        ⟨[], some (0, .ok ⟨[⟨⟨ip, port⟩, ip.text, q.service⟩]⟩)⟩

theorem literal_run (settings : LookupSettings) (directory : Directory) :
    Literal settings directory where
  printed := V6.written_write
  forth ip service hints port host hp hh := by
    have hd : Denotes host ip := by
      rcases hh with rfl | rfl
      · exact denotes_text ip
      · exact denotes_bracketed ip
    exact run_of_denotes (q := ⟨host,service,hints⟩) hp hd
  back q d found hh ha ho := by
    obtain ⟨ip,port,hd,hp,he⟩ := denotes_of_unasked hh ha ho
    exact ⟨ip,port,hd,he,run_of_denotes (q := { q with host := ip.text }) hp (denotes_text ip)⟩

end Query
end EventLoop
