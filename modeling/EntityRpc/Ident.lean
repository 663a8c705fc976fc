namespace EntityRpc

abbrev Bytes := List UInt8

abbrev FieldId := UInt32
abbrev ComponentId := UInt32
abbrev CommandIndex := UInt32
abbrev EntityId := Int64

end EntityRpc
