import Switchyard.Kind

namespace Switchyard

/-- How the ids of created switches, buses and busbar sections are formed. -/
structure NamingStrategy where
  name : String
  /-- The base of the ids of the switches of a connectable, with its side if it has several. -/
  switchBase : (connectable : String) → (side : Option Side) → String
  couplingBase : (voltageLevel busbarSection1 busbarSection2 : String) → String
  breaker : (base : String) → String
  breakerBetween : (base : String) → (node1 node2 : Node) → String
  disconnector : (base : String) → (node1 node2 : Node) → String
  busbarDisconnector : (busbarSection base : String) → (fork node : Node) → String
  busbar : (base : String) → (busbarIndex sectionIndex : Int32) → String
  busbarAt : (voltageLevel : String) → (node : Node) → String
  bus : (base : String) → String
  switch : (base : String) → String
  sectioning : (base : String) → (busbarIndex section1 section2 : Int32) → String

/-- Ids are made of the base and the numbers, joined by underscores. -/
def NamingStrategy.standard : NamingStrategy where
  name := "Default"
  switchBase connectable _ := connectable
  couplingBase vl bbs1 bbs2 := s!"{vl}_{bbs1}_{bbs2}"
  breaker base := s!"{base}_BREAKER"
  breakerBetween base node1 node2 := s!"{base}_BREAKER_{node1}_{node2}"
  disconnector base node1 node2 := s!"{base}_DISCONNECTOR_{node1}_{node2}"
  busbarDisconnector _ base fork node := s!"{base}_DISCONNECTOR_{fork}_{node}"
  busbar base busbarIndex sectionIndex := s!"{base}_{busbarIndex}_{sectionIndex}"
  busbarAt vl node := s!"{vl}_{node}"
  bus base := s!"{base}_BUS"
  switch base := s!"{base}_SW"
  sectioning base busbarIndex section1 section2 :=
    s!"{base}_{busbarIndex}_{section1}_{section2}"

/-- The strategies known by name. -/
def NamingStrategy.find? (name : String) : Option NamingStrategy :=
  [standard].find? (·.name == name)

end Switchyard
