/-! # The event types both programs know -/
namespace MySQLSyncer.Core

def rsWriteRowsEvent : UInt8 := 23

def rsUpdateRowsEvent : UInt8 := 24

def rsDeleteRowsEvent : UInt8 := 25

def IsRowsEvent (t : UInt8) : Prop :=
  t = rsWriteRowsEvent ∨ t = rsUpdateRowsEvent ∨ t = rsDeleteRowsEvent

instance : DecidablePred IsRowsEvent := fun _ => inferInstanceAs (Decidable (_ ∨ _))

theorem isRowsEvent_write : IsRowsEvent rsWriteRowsEvent := Or.inl rfl

theorem IsRowsEvent.ne_zero {t : UInt8} (h : IsRowsEvent t) : t ≠ 0 := by
  rcases h with rfl | rfl | rfl <;> decide

end MySQLSyncer.Core
