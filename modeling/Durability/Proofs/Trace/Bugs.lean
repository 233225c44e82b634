import Durability.Trace.Event

namespace Durability

theorem EventLog.ext_events {l m : EventLog} (h : l.events = m.events) : l = m := by
  obtain ⟨es, bugs, rfl⟩ := l
  obtain ⟨es', bugs', rfl⟩ := m
  cases h
  rfl

namespace Trace

variable {t : Trace} {bug : Nat}

theorem mem_bugs_iff : bug ∈ t.bugs ↔ ∃ e, t.events[bug]? = some e ∧ e.isBug = true := by
  rw [bugs, t.log.bugs_eq]
  simp [Event.marked, List.mem_zipIdx_iff_getElem?]

theorem bugs_sublist (t : Trace) : t.bugs.Sublist (List.range t.events.length) := by
  have hsublist : t.bugs.Sublist (t.events.zipIdx.map (·.2)) := by
    rw [bugs, t.log.bugs_eq]
    exact List.filter_sublist.map _
  rwa [List.zipIdx_map_snd, ← List.range_eq_range'] at hsublist

theorem bugs_increasing (t : Trace) : t.bugs.Pairwise (· < ·) :=
  List.pairwise_lt_range.sublist t.bugs_sublist

theorem nodup_bugs (t : Trace) : t.bugs.Nodup := t.bugs_increasing.imp Nat.ne_of_lt

theorem add_eq (t : Trace) (e : Event) : t.add e = ⟨t.source, .ofList (t.events ++ [e])⟩ :=
  congrArg (Trace.mk t.source) (EventLog.ext_events rfl)

end Trace

end Durability
